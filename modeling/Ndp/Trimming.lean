import Mathlib.Data.List.DropRight
import Mathlib.Tactic.Common

/-! Dropping what satisfies a predicate from both ends of a list, and what is then left of two
lists put together. -/
namespace Trimming

variable {α : Type} (p : α → Bool)

def trim (s : List α) : List α := (s.dropWhile p).rdropWhile p

def Blank (s : List α) : Prop := ∀ c ∈ s, p c

instance (s : List α) : Decidable (Blank p s) := inferInstanceAs (Decidable (∀ c ∈ s, p c = true))

/-- Nothing to drop, at either end. -/
structure Core (s : List α) : Prop where
  nonempty : s ≠ []
  first : ¬p (s.head nonempty)
  last : ¬p (s.getLast nonempty)

variable {p} {s t front core back : List α}

theorem Blank.append (first : Blank p s) (second : Blank p t) : Blank p (s ++ t) := by
  intro c member
  exact (List.mem_append.mp member).elim (first c) (second c)

theorem Core.join (first : Core p s) (middle : List α) (second : Core p t) : Core p (s ++ middle ++ t) := by
  refine ⟨by simp [first.nonempty],?_,?_⟩
  · rw [List.head_append_of_ne_nil (by simp [first.nonempty]),List.head_append_of_ne_nil first.nonempty]
    exact first.first
  · rw [List.getLast_append_of_ne_nil _ second.nonempty]
    exact second.last

theorem dropWhile_blank (blank : Blank p front) (rest : List α) :
    (front ++ rest).dropWhile p = rest.dropWhile p := by
  induction front with
  | nil => rfl
  | cons c front ih =>
    rw [List.cons_append,List.dropWhile_cons_of_pos (blank c (by simp))]
    exact ih fun c member => blank c (by simp [member])

theorem Core.dropWhile (is : Core p core) (rest : List α) : (core ++ rest).dropWhile p = core ++ rest := by
  obtain ⟨c,core,rfl⟩ := List.exists_cons_of_ne_nil is.nonempty
  exact List.dropWhile_cons_of_neg is.first

theorem Core.rdropWhile (is : Core p core) (blank : Blank p back) : (core ++ back).rdropWhile p = core := by
  induction back using List.reverseRecOn with
  | nil =>
    rw [List.append_nil]
    exact List.rdropWhile_eq_self_iff.mpr fun _ => is.last
  | append_singleton back c ih =>
    rw [← List.append_assoc,List.rdropWhile_concat_pos _ _ _ (blank c (by simp))]
    exact ih fun c member => blank c (by simp [member])

theorem trim_core (before : Blank p front) (is : Core p core) (behind : Blank p back) :
    trim p (front ++ core ++ back) = core := by
  rw [trim,List.append_assoc,dropWhile_blank before,is.dropWhile,is.rdropWhile behind]

theorem core_blank {c : α} (first : ¬p c) (s : List α) :
    ∃ core back, c :: s = core ++ back ∧ Core p core ∧ Blank p back := by
  induction s using List.reverseRecOn with
  | nil => exact ⟨[c],[],rfl,⟨by simp,first,first⟩,by simp [Blank]⟩
  | append_singleton s d ih =>
    by_cases last : p d
    · obtain ⟨core,back,split,is,blank⟩ := ih
      refine ⟨core,back ++ [d],?_,is,blank.append (by simpa [Blank] using last)⟩
      rw [← List.append_assoc,← split,List.cons_append]
    · exact ⟨c :: (s ++ [d]),[],by simp,⟨by simp,first,by simpa using last⟩,by simp [Blank]⟩

theorem blank_or_core (p : α → Bool) (s : List α) :
    Blank p s ∨ ∃ front core back, s = front ++ core ++ back ∧ Blank p front ∧ Core p core ∧ Blank p back := by
  induction s with
  | nil => exact .inl (by simp [Blank])
  | cons c s ih =>
    by_cases dropped : p c
    · have one : Blank p [c] := by simpa [Blank] using dropped
      rcases ih with blank | ⟨front,core,back,rfl,before,is,behind⟩
      · exact .inl (one.append blank)
      · exact .inr ⟨c :: front,core,back,rfl,one.append before,is,behind⟩
    · obtain ⟨core,back,split,is,behind⟩ := core_blank dropped s
      exact .inr ⟨[],core,back,split,by simp [Blank],is,behind⟩

theorem trim_blank (blank : Blank p s) : trim p s = [] := by
  have := dropWhile_blank blank []
  rw [List.append_nil] at this
  simp [trim,this]

theorem trim_append_blank (blank : Blank p t) : trim p (s ++ t) = trim p s := by
  rcases blank_or_core p s with empty | ⟨front,core,back,rfl,before,is,behind⟩
  · rw [trim_blank empty,trim_blank (empty.append blank)]
  · rw [trim_core before is behind,List.append_assoc,trim_core before is (behind.append blank)]

theorem mem_trim_append {c : α} (filled : trim p (s ++ [c]) ≠ []) (more : ¬Blank p t) : c ∈ trim p (s ++ [c] ++ t) := by
  obtain empty | ⟨front',core',back',split',before',is',behind'⟩ := blank_or_core p t
  · exact absurd empty more
  obtain empty | ⟨front,core,back,split,before,is,behind⟩ := blank_or_core p (s ++ [c])
  · exact absurd (trim_blank empty) filled
  have whole : s ++ [c] ++ t = front ++ (core ++ (back ++ front') ++ core') ++ back' := by
    rw [split,split']
    simp only [List.append_assoc]
  rw [whole,trim_core before (is.join _ is') behind']
  have member : c ∈ core ++ back := by
    have last : (front ++ (core ++ back)).getLast? = Option.some c := by
      rw [← List.append_assoc,← split,List.getLast?_concat]
    rw [List.getLast?_append_of_ne_nil _ (by simp [is.nonempty])] at last
    exact List.mem_of_getLast? last
  rcases List.mem_append.mp member with inner | outer
  · simp [inner]
  · simp [outer]

end Trimming
