import Mathlib.Data.List.Induction
import Ndp.CppStd
import Ndp.FnRegistrations

/-! The two tables of functions, `fn_registration` of the C++ programs and `FnRegistrations`
of the Rust ones, over whole histories of calls. Both keep one word for each slot. The C++
class lets the slot one past the end through when a handler is set, and looks handlers up
without any check. -/
namespace Ndp

namespace Cpp

structure FnRegistration where
  maxRegistrations : UInt32
  fns : List UInt64
  deriving DecidableEq, Repr

namespace FnRegistration

def new (maxRegistrations : UInt32) : FnRegistration :=
  ⟨maxRegistrations, List.replicate maxRegistrations.toNat 0⟩

def setHandler (reg : FnRegistration) (slot : UInt32) (handler : UInt64) : Outcome FnRegistration :=
  if slot > reg.maxRegistrations then .exited "handler slot out of range"
  else do
    let fns ← vectorPut reg.fns slot.toNat handler
    return { reg with fns := fns }

def handlerAt (reg : FnRegistration) (slot : UInt32) : Outcome UInt64 := do
  let fn ← vectorAt reg.fns slot.toNat
  if fn = 0 then .exited nullMessage else return fn

end FnRegistration

end Cpp

open Cpp (Outcome)

inductive TableCall where
  | setHandler (slot : UInt32) (handler : UInt64)
  | handlerAt (slot : UInt32)
  deriving DecidableEq, Repr

def TableCall.NonNull : TableCall → Prop
  | .setHandler _ handler => handler ≠ 0
  | .handlerAt _ => True

/-- The handler most recently set for a slot. -/
def recent (slot : UInt32) : List TableCall → Option UInt64 :=
  List.foldl (fun found call => match call with
    | .setHandler s handler => if s = slot then some handler else found
    | .handlerAt _ => found) none

/-- The table after calls that have all returned. -/
def Cpp.FnRegistration.after (reg : FnRegistration) : List TableCall → Outcome FnRegistration
  | [] => return reg
  | .setHandler slot handler :: rest => do (← reg.setHandler slot handler).after rest
  | .handlerAt slot :: rest => do
    let _ ← reg.handlerAt slot
    reg.after rest

def FnRegistrations.after (fns : FnRegistrations) : List TableCall → Except Panic FnRegistrations
  | [] => return fns
  | .setHandler slot handler :: rest => do (← fns.setHandler slot handler).after rest
  | .handlerAt slot :: rest => do
    let _ ← fns.handlerAt slot
    fns.after rest

@[simp] theorem recent_nil (slot : UInt32) : recent slot [] = none := rfl

@[simp] theorem recent_set (slot s : UInt32) (handler : UInt64) (calls : List TableCall) :
    recent slot (calls ++ [.setHandler s handler]) = if s = slot then some handler else recent slot calls := by
  simp [recent]

@[simp] theorem recent_at (slot s : UInt32) (calls : List TableCall) :
    recent slot (calls ++ [.handlerAt s]) = recent slot calls := by
  simp [recent]

theorem recent_nonNull {slot : UInt32} {calls : List TableCall} {handler : UInt64}
    (nonNull : ∀ call ∈ calls, call.NonNull) (found : recent slot calls = some handler) : handler ≠ 0 := by
  induction calls using List.reverseRecOn with
  | nil => simp at found
  | append_singleton calls call ih =>
    have before : ∀ call ∈ calls, call.NonNull := fun c member => nonNull c (by simp [member])
    cases call with
    | handlerAt s => exact ih before (by simpa using found)
    | setHandler s h =>
      rw [recent_set] at found
      split at found
      · obtain rfl := Option.some.inj found
        exact nonNull (.setHandler s h) (by simp)
      · exact ih before found

/-- One word for each slot: the handler most recently set, or null. -/
structure Tabulates (max : UInt32) (calls : List TableCall) (slots : List UInt64) : Prop where
  length : slots.length = max.toNat
  word : ∀ slot : UInt32, slot < max → slots[slot.toNat]? = some ((recent slot calls).getD 0)

theorem tabulates_new (max : UInt32) : Tabulates max [] (List.replicate max.toNat 0) := by
  refine ⟨List.length_replicate,?_⟩
  intro slot inside
  simp [UInt32.lt_iff_toNat_lt.mp inside]

theorem Tabulates.set {max slot : UInt32} {calls : List TableCall} {slots : List UInt64}
    (tabulates : Tabulates max calls slots) (inside : slot < max) (handler : UInt64) :
    Tabulates max (calls ++ [.setHandler slot handler]) (slots.set slot.toNat handler) := by
  have bound : slot.toNat < slots.length := by
    rw [tabulates.length]
    exact UInt32.lt_iff_toNat_lt.mp inside
  refine ⟨by rw [List.length_set]; exact tabulates.length,?_⟩
  intro other below
  rw [recent_set]
  by_cases same : slot = other
  · subst same
    simp [bound]
  · have apart : slot.toNat ≠ other.toNat := fun eq => same (UInt32.toNat_inj.mp eq)
    rw [List.getElem?_set_ne apart,if_neg same]
    exact tabulates.word other below

theorem Tabulates.at {max : UInt32} {calls : List TableCall} {slots : List UInt64}
    (tabulates : Tabulates max calls slots) (slot : UInt32) :
    Tabulates max (calls ++ [.handlerAt slot]) slots :=
  ⟨tabulates.length,fun other below => by rw [recent_at]; exact tabulates.word other below⟩

section Lookups

variable {max slot : UInt32} {calls : List TableCall} {slots : List UInt64}

theorem Tabulates.beyond (tabulates : Tabulates max calls slots) (outside : max ≤ slot) :
    slots[slot.toNat]? = none := by
  apply List.getElem?_eq_none
  rw [tabulates.length]
  exact UInt32.le_iff_toNat_le.mp outside

theorem Tabulates.found (tabulates : Tabulates max calls slots) (nonNull : ∀ call ∈ calls, call.NonNull)
    (inside : slot < max) :
    (recent slot calls = none ∧ slots[slot.toNat]? = some 0) ∨
    ∃ handler, recent slot calls = some handler ∧ handler ≠ 0 ∧ slots[slot.toNat]? = some handler := by
  have word := tabulates.word slot inside
  cases set : recent slot calls with
  | none => exact .inl ⟨rfl,by simpa [set] using word⟩
  | some handler => exact .inr ⟨handler,rfl,recent_nonNull nonNull set,by simpa [set] using word⟩

theorem Tabulates.index_lt_iff (tabulates : Tabulates max calls slots) (slot : UInt32) :
    slot.toNat < slots.length ↔ slot < max := by
  rw [tabulates.length,UInt32.lt_iff_toNat_lt]

end Lookups

namespace FnRegistrations

variable {max slot : UInt32} {calls : List TableCall} {fns : FnRegistrations}

theorem setHandler_eq (tabulates : Tabulates max calls fns.slots) (handler : UInt64) :
    fns.setHandler slot handler = if slot < max then .ok ⟨fns.slots.set slot.toNat handler⟩
      else .error (.explicit "Function slot out of range") := by
  have index := tabulates.index_lt_iff slot
  unfold setHandler
  by_cases inside : slot < max
  · rw [if_neg (Nat.not_le.mpr (index.mpr inside)),if_pos inside]
  · rw [if_pos (Nat.not_lt.mp (mt index.mp inside)),if_neg inside]

theorem handlerAt_inside (tabulates : Tabulates max calls fns.slots)
    (nonNull : ∀ call ∈ calls, call.NonNull) (inside : slot < max) :
    fns.handlerAt slot = .ok (recent slot calls) := by
  unfold handlerAt
  rcases tabulates.found nonNull inside with ⟨unset,word⟩ | ⟨handler,set,live,word⟩
  · simp [unset,word]
  · simp [set,word,live]

theorem handlerAt_beyond (tabulates : Tabulates max calls fns.slots) (outside : max ≤ slot) :
    fns.handlerAt slot = .error .indexOutOfBounds := by
  simp only [handlerAt,tabulates.beyond outside]

theorem after_tabulates {rest : List TableCall} {fns' : FnRegistrations}
    (tabulates : Tabulates max calls fns.slots) (returned : fns.after rest = .ok fns') :
    Tabulates max (calls ++ rest) fns'.slots := by
  induction rest generalizing fns calls with
  | nil =>
    obtain rfl := Except.ok.inj returned
    simpa using tabulates
  | cons call rest ih =>
    rw [List.append_cons]
    cases call with
    | setHandler s handler =>
      obtain ⟨next,set,others⟩ := except_bind_ok_iff.mp returned
      rw [setHandler_eq tabulates] at set
      split at set
      · next inside =>
        obtain rfl := Except.ok.inj set
        exact ih (tabulates.set inside handler) others
      · contradiction
    | handlerAt s =>
      obtain ⟨_,_,others⟩ := except_bind_ok_iff.mp returned
      exact ih (tabulates.at s) others

end FnRegistrations

namespace Cpp.FnRegistration

variable {max slot : UInt32} {calls : List TableCall} {reg : FnRegistration}

/-- The slot one past the end passes the check. -/
theorem setHandler_eq (tabulates : Tabulates max calls reg.fns) (bound : reg.maxRegistrations = max)
    (handler : UInt64) :
    reg.setHandler slot handler = if slot < max then .returned ⟨max, reg.fns.set slot.toNat handler⟩
      else if slot = max then .outOfBounds max.toNat else .exited "handler slot out of range" := by
  have index := tabulates.index_lt_iff slot
  unfold setHandler vectorPut
  rw [bound]
  by_cases inside : slot < max
  · have notPast : ¬slot > max := UInt32.not_lt.mpr (UInt32.le_of_lt inside)
    simp [inside,notPast,index]
  · by_cases last : slot = max
    · subst last
      simp [inside,index]
    · have past : slot > max := UInt32.lt_of_le_of_ne (UInt32.not_lt.mp inside) (Ne.symm last)
      simp [inside,last,past]

theorem handlerAt_inside (tabulates : Tabulates max calls reg.fns)
    (nonNull : ∀ call ∈ calls, call.NonNull) (inside : slot < max) :
    reg.handlerAt slot = match recent slot calls with
      | some handler => .returned handler
      | none => .exited nullMessage := by
  unfold handlerAt vectorAt
  rcases tabulates.found nonNull inside with ⟨unset,word⟩ | ⟨handler,set,live,word⟩
  · simp [unset,word]
  · simp [set,word,live]

theorem handlerAt_beyond (tabulates : Tabulates max calls reg.fns) (outside : max ≤ slot) :
    reg.handlerAt slot = .outOfBounds slot.toNat := by
  simp [handlerAt,vectorAt,tabulates.beyond outside]

theorem after_tabulates {rest : List TableCall} {reg' : FnRegistration}
    (tabulates : Tabulates max calls reg.fns) (bound : reg.maxRegistrations = max)
    (returned : reg.after rest = .returned reg') :
    Tabulates max (calls ++ rest) reg'.fns ∧ reg'.maxRegistrations = max ∧
      ∀ fns : FnRegistrations, fns.slots = reg.fns → ∃ fns', fns.after rest = .ok fns' ∧ fns'.slots = reg'.fns := by
  induction rest generalizing reg calls with
  | nil =>
    obtain rfl := Outcome.returned.inj returned
    exact ⟨by simpa using tabulates,bound,fun fns same => ⟨fns,rfl,same⟩⟩
  | cons call rest ih =>
    rw [List.append_cons]
    cases call with
    | setHandler s handler =>
      obtain ⟨next,set,others⟩ := Outcome.bind_returned_iff.mp returned
      rw [setHandler_eq tabulates bound] at set
      split at set
      · next inside =>
        obtain rfl := Outcome.returned.inj set
        obtain ⟨holds,bound',alike⟩ := ih (tabulates.set inside handler) rfl others
        refine ⟨holds,bound',fun fns same => ?_⟩
        have stored : fns.setHandler s handler = _ := FnRegistrations.setHandler_eq (same ▸ tabulates) handler
        rw [if_pos inside] at stored
        obtain ⟨fns',went,slots⟩ := alike ⟨fns.slots.set s.toNat handler⟩ (by rw [same])
        exact ⟨fns',by simp only [FnRegistrations.after,stored]; exact went,slots⟩
      · split at set <;> contradiction
    | handlerAt s =>
      obtain ⟨found,looked,others⟩ := Outcome.bind_returned_iff.mp returned
      obtain ⟨holds,bound',alike⟩ := ih (tabulates.at s) bound others
      refine ⟨holds,bound',fun fns same => ?_⟩
      obtain ⟨fns',went,slots⟩ := alike fns same
      refine ⟨fns',?_,slots⟩
      cases word : reg.fns[s.toNat]? with
      | none => simp [handlerAt,vectorAt,word] at looked
      | some fn =>
        simp only [FnRegistrations.after,FnRegistrations.handlerAt,same,word]
        exact went

end Cpp.FnRegistration

/-- Setting a handler panics exactly on slots the table does not have, and stays inside it. -/
def Cpp.FnRegistration.SetsAsMeant (max : UInt32) (reg : FnRegistration) (slot : UInt32) (handler : UInt64) :
    Prop :=
  ((∃ message, reg.setHandler slot handler = .exited message) ↔ max ≤ slot) ∧
  ∀ index, reg.setHandler slot handler ≠ .outOfBounds index

/-- Looking a handler up stays inside the table and gives the one most recently set. -/
def Cpp.FnRegistration.LooksUpAsMeant (max : UInt32) (calls : List TableCall) (reg : FnRegistration)
    (slot : UInt32) : Prop :=
  (∀ index, reg.handlerAt slot ≠ .outOfBounds index) ∧
  (slot < max → reg.handlerAt slot = match recent slot calls with
    | some handler => .returned handler
    | none => .exited nullMessage)

/-- After any calls that returned, in C++ the next one behaves exactly if it sets a slot other
than the one past the end, or looks up one inside. In Rust it always does, and the tables hold
the same words. -/
theorem function_tables_alike (max : UInt32) (calls : List TableCall) (nonNull : ∀ call ∈ calls, call.NonNull) :
    (∀ fns, (FnRegistrations.withMaxRegistrations max).after calls = .ok fns → ∀ slot,
      (∀ handler, (∃ panic, fns.setHandler slot handler = .error panic) ↔ max ≤ slot) ∧
      (slot < max → fns.handlerAt slot = .ok (recent slot calls)) ∧
      (max ≤ slot → fns.handlerAt slot = .error .indexOutOfBounds)) ∧
    (∀ reg, (Cpp.FnRegistration.new max).after calls = .returned reg →
      (∃ fns, (FnRegistrations.withMaxRegistrations max).after calls = .ok fns ∧ fns.slots = reg.fns) ∧
      ∀ slot, (∀ handler, reg.SetsAsMeant max slot handler ↔ slot ≠ max) ∧
        (reg.LooksUpAsMeant max calls slot ↔ slot < max)) := by
  constructor
  · intro fns returned slot
    have tabulates := FnRegistrations.after_tabulates (tabulates_new max) returned
    rw [List.nil_append] at tabulates
    refine ⟨fun handler => ?_,FnRegistrations.handlerAt_inside tabulates nonNull,
      FnRegistrations.handlerAt_beyond tabulates⟩
    rw [FnRegistrations.setHandler_eq tabulates,← UInt32.not_lt]
    by_cases inside : slot < max <;> simp [inside]
  · intro reg returned
    have empty : Tabulates max [] (Cpp.FnRegistration.new max).fns := tabulates_new max
    obtain ⟨tabulates,bound,alike⟩ := Cpp.FnRegistration.after_tabulates empty rfl returned
    rw [List.nil_append] at tabulates
    refine ⟨alike _ rfl,fun slot => ⟨fun handler => ?_,?_,?_⟩⟩
    · rw [Cpp.FnRegistration.SetsAsMeant,Cpp.FnRegistration.setHandler_eq tabulates bound,← UInt32.not_lt]
      by_cases inside : slot < max
      · simp [inside,UInt32.ne_of_lt inside]
      · by_cases last : slot = max <;> simp [inside,last]
    · intro meant
      by_contra outside
      exact meant.1 _ (Cpp.FnRegistration.handlerAt_beyond tabulates (UInt32.not_lt.mp outside))
    · intro inside
      have looked := Cpp.FnRegistration.handlerAt_inside tabulates nonNull inside
      refine ⟨fun index touched => ?_,fun _ => looked⟩
      rw [looked] at touched
      split at touched <;> contradiction

/-- A table of the server's size with a handler in place. -/
theorem function_tables_alike_server :
    ∃ reg, (Cpp.FnRegistration.new 100).after [.setHandler 42 7, .handlerAt 42] = .returned reg ∧
      reg.LooksUpAsMeant 100 [.setHandler 42 7, .handlerAt 42] 42 ∧ reg.SetsAsMeant 100 101 7 := by
  obtain ⟨reg,returned⟩ : ∃ reg, (Cpp.FnRegistration.new 100).after [.setHandler 42 7, .handlerAt 42] =
      .returned reg := ⟨_,rfl⟩
  have alike := ((function_tables_alike 100 [.setHandler 42 7, .handlerAt 42]
    (by simp [TableCall.NonNull])).2 reg returned).2
  exact ⟨reg,returned,(alike 42).2.mpr (by decide),((alike 101).1 7).mpr (by decide)⟩

/-- A handler set one past the end, and one looked up there. -/
theorem slot_past_end :
    (Cpp.FnRegistration.new 100).setHandler 100 7 = .outOfBounds 100 ∧
    (Cpp.FnRegistration.new 100).handlerAt 100 = .outOfBounds 100 ∧
    (FnRegistrations.withMaxRegistrations 100).setHandler 100 7 = .error (.explicit "Function slot out of range") ∧
    (FnRegistrations.withMaxRegistrations 100).handlerAt 100 = .error .indexOutOfBounds := by
  decide

end Ndp
