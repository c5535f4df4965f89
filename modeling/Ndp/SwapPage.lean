import Ndp.EdgeClient

/-! The swap page of the C++ client among the other mappings of the process. Every round moves the
invoke page to where the swap page was mapped and unmaps that place, so from the first round on the
place is anybody's; the next round moves the invoke page there again, and what has been mapped there in
between is gone. Other parts of the process map and unmap pages at any time. -/
namespace Ndp.Cpp.EdgeClient

inductive Owner where
  | request
  | response
  | invoke
  | swap
  | other (id : Nat)
  deriving DecidableEq, Repr

/-- The pages the three buffers were mapped at. -/
structure Layout where
  request : Nat
  response : Nat
  invoke : Nat
  response_ne : response ≠ request
  invoke_ne : invoke ≠ request ∧ invoke ≠ response

/-- The client in its address space; `swap` is the place the swap page was mapped at. -/
structure Space where
  client : Client
  pages : Nat → Option Owner
  swap : Option Nat

namespace Space

def start (layout : Layout) : Space where
  client := .start
  pages page :=
    if page = layout.request then some .request
    else if page = layout.response then some .response
    else if page = layout.invoke then some .invoke
    else none
  swap := none

/-- The pages when a mapping is put at the place of the swap page, or none is left there. -/
def placed (s : Space) (owner : Option Owner) : Nat → Option Owner :=
  match s.swap with
  | some page => Function.update s.pages page owner
  | none => s.pages

end Space

/-- A step of `main`, with a page that is free if the kernel has to find one; a step of the handler; and
what others do, who map pages that are free and unmap their own. -/
inductive Turn where
  | main (free : Nat)
  | handler
  | map (page id : Nat)
  | release (page : Nat)
  deriving DecidableEq, Repr

/-- `mremap` with `MREMAP_FIXED` unmaps what is at its destination, and `MREMAP_DONTUNMAP` leaves the
invoke page mapped. `munmap` is content with a place where nothing is mapped. -/
def Program.turn (program : Program) (s : Space) : Turn → Space
  | .main free =>
    match s.client.main with
    | .mapping =>
      if s.pages free = none then
        ⟨program.mainStep s.client, Function.update s.pages free (some .swap), some free⟩
      else s
    | .remapping _ => { s with client := program.mainStep s.client, pages := s.placed (some .swap) }
    | .unmapping _ | .destroying => { s with client := program.mainStep s.client, pages := s.placed none }
    | _ => { s with client := program.mainStep s.client }
  | .handler => { s with client := program.handlerStep s.client }
  | .map page id =>
    if s.pages page = none then { s with pages := Function.update s.pages page (some (.other id)) } else s
  | .release page =>
    match s.pages page with
    | some (.other _) => { s with pages := Function.update s.pages page none }
    | _ => s

def Foreign (pages : Nat → Option Owner) (page : Nat) : Prop := pages page = none ∨ ∃ id, pages page = some (.other id)

def Space.Held (s : Space) : Prop := ∃ page, s.swap = some page ∧ s.pages page = some .swap

def Space.Free (s : Space) : Prop := ∃ page, s.swap = some page ∧ Foreign s.pages page

/-- What is known of the place, by where `main` stands. -/
inductive SwapAt where
  | unmapped
  | held
  | free
  | either
  deriving DecidableEq, Repr

def MainAt.swapAt : MainAt → SwapAt
  | .calling call _ => if call < 2 then .unmapped else .free
  | .mapping => .unmapped
  | .looping k | .remapping k => if k = 0 then .held else .free
  | .unmapping _ => .held
  | .destroying => .either
  | .terminated => .free

def SwapSound (s : Space) : SwapAt → Prop
  | .unmapped => s.swap = none
  | .held => s.Held
  | .free => s.Free
  | .either => s.Held ∨ s.Free

structure PagesSound (layout : Layout) (s : Space) : Prop where
  request : s.pages layout.request = some .request
  response : s.pages layout.response = some .response
  invoke : s.pages layout.invoke = some .invoke
  swap : SwapSound s s.client.main.swapAt

variable {program : Program} {layout : Layout} {s : Space}

theorem start_sound (layout : Layout) : PagesSound layout (.start layout) := by
  have one := layout.response_ne
  have two := layout.invoke_ne
  exact ⟨by simp [Space.start],by simp [Space.start,one],by simp [Space.start,two],rfl⟩

/-- Nothing but pages of others has changed, and only from theirs to no one's or back. -/
def OthersOnly (pages pages' : Nat → Option Owner) : Prop :=
  ∀ page, pages' page = pages page ∨ Foreign pages page ∧ Foreign pages' page

section Others

variable {s' : Space} (others : OthersOnly s.pages s'.pages)
include others

theorem OthersOnly.foreign {page : Nat} (foreign : Foreign s.pages page) : Foreign s'.pages page := by
  rcases others page with same | ⟨_,after⟩
  · rwa [Foreign,same]
  · exact after

theorem OthersOnly.own {page : Nat} {owner : Owner} (own : s.pages page = some owner) (ours : ∀ id, owner ≠ .other id) :
    s'.pages page = some owner := by
  rcases others page with same | ⟨unmapped | ⟨id,other⟩,_⟩
  · rw [same,own]
  · rw [own] at unmapped
    contradiction
  · rw [own] at other
    exact absurd (Option.some.inj other) (ours id)

end Others

theorem PagesSound.beside (sound : PagesSound layout s) {s' : Space} (others : OthersOnly s.pages s'.pages)
    (swap : s'.swap = s.swap)
    (main : s'.client.main.swapAt = s.client.main.swapAt ∨ s'.client.main.swapAt = .either ∧ s.client.main.swapAt ≠ .unmapped) :
    PagesSound layout s' := by
  have held : s.Held → s'.Held := fun ⟨page,place,own⟩ => ⟨page,swap.trans place,others.own own (by simp)⟩
  have free : s.Free → s'.Free := fun ⟨page,place,foreign⟩ => ⟨page,swap.trans place,others.foreign foreign⟩
  refine ⟨others.own sound.request (by simp),others.own sound.response (by simp),others.own sound.invoke (by simp),?_⟩
  have here := sound.swap
  rcases main with same | ⟨either,mapped⟩
  · rw [same]
    cases known : s.client.main.swapAt <;> rw [known] at here
    · exact swap.trans here
    · exact held here
    · exact free here
    · exact here.imp held free
  · rw [either]
    cases known : s.client.main.swapAt <;> rw [known] at here
    · exact absurd known mapped
    · exact .inl (held here)
    · exact .inr (free here)
    · exact here.imp held free

theorem othersOnly_refl (pages : Nat → Option Owner) : OthersOnly pages pages := fun _ => .inl rfl

theorem othersOnly_update {pages : Nat → Option Owner} {page : Nat} {owner : Option Owner} (before : Foreign pages page)
    (after : owner = none ∨ ∃ id, owner = some (.other id)) : OthersOnly pages (Function.update pages page owner) := by
  intro other
  by_cases same : other = page
  · subst same
    exact .inr ⟨before,by rwa [Foreign,Function.update_self]⟩
  · exact .inl (Function.update_of_ne same _ _)

theorem PagesSound.place (sound : PagesSound layout s) {page : Nat} (owner : Option Owner)
    (there : s.pages page = some .swap ∨ Foreign s.pages page) {client : Client} {swap : Option Nat}
    (known : SwapSound ⟨client, Function.update s.pages page owner, swap⟩ client.main.swapAt) :
    PagesSound layout ⟨client, Function.update s.pages page owner, swap⟩ := by
  have apart : ∀ {buffer : Nat} {own : Owner}, s.pages buffer = some own → own ≠ .swap → (∀ id, own ≠ .other id) →
      Function.update s.pages page owner buffer = some own := by
    intro buffer own mapped ours notOther
    have ne : buffer ≠ page := by
      rintro rfl
      rcases there with swap | unmapped | ⟨id,other⟩
      · rw [mapped] at swap
        exact ours (Option.some.inj swap)
      · rw [mapped] at unmapped
        contradiction
      · rw [mapped] at other
        exact notOther id (Option.some.inj other)
    rw [Function.update_of_ne ne,mapped]
  exact ⟨apart sound.request (by simp) (by simp),apart sound.response (by simp) (by simp),
    apart sound.invoke (by simp) (by simp),known⟩

theorem behind_swapAt (call : Nat) (position : ThreadAt) :
    (MainAt.behind call).swapAt = (MainAt.calling call position).swapAt := by
  match call with
  | 0 => rfl
  | 1 => rfl
  | k + 2 => rfl

theorem callStep_swapAt (program : Program) (client : Client) (call : Nat) (position : ThreadAt)
    (place : client.main = .calling call position) :
    (program.callStep client call position).main.swapAt = (MainAt.calling call position).swapAt := by
  cases position with
  | returned result => exact behind_swapAt call _
  | poke =>
    simp only [Program.callStep]
    split
    · rfl
    · split <;> rfl
  | faulted =>
    simp only [Program.callStep]
    split
    · rfl
    · rw [place]
  | _ => rfl

theorem handlerStep_main (program : Program) (client : Client) : (program.handlerStep client).main = client.main := by
  cases place : client.handler with
  | polling =>
    simp only [Program.handlerStep,place]
    split <;> rfl
  | loadSlot =>
    simp only [Program.handlerStep,place]
    cases program.ctx.fns.handlerAt (client.mem.request 0) <;> rfl
  | calling fn arg0 =>
    cases computed : program.ctx.call fn arg0 <;> simp only [Program.handlerStep,place,computed]
  | _ => simp only [Program.handlerStep,place]

theorem mapped_place (sound : PagesSound layout s) (mapped : s.client.main.swapAt ≠ .unmapped) :
    ∃ page, s.swap = some page ∧ (s.pages page = some .swap ∨ Foreign s.pages page) := by
  have here := sound.swap
  cases known : s.client.main.swapAt <;> rw [known] at here
  · exact absurd known mapped
  · obtain ⟨page,place,own⟩ := here
    exact ⟨page,place,.inl own⟩
  · obtain ⟨page,place,foreign⟩ := here
    exact ⟨page,place,.inr foreign⟩
  · rcases here with ⟨page,place,own⟩ | ⟨page,place,foreign⟩
    · exact ⟨page,place,.inl own⟩
    · exact ⟨page,place,.inr foreign⟩

theorem main_sound (sound : PagesSound layout s) (free : Nat) : PagesSound layout (program.turn s (.main free)) := by
  have here := sound.swap
  cases place : s.client.main with
  | calling call position =>
    have same : (program.mainStep s.client).main.swapAt = s.client.main.swapAt := by
      simp only [Program.mainStep,place]
      exact callStep_swapAt program s.client call position place
    simp only [Program.turn,place]
    exact sound.beside (othersOnly_refl _) rfl (.inl same)
  | mapping =>
    simp only [Program.turn,place]
    split
    next unmapped =>
      refine sound.place _ (.inr (.inl unmapped)) ?_
      simp only [Program.mainStep,place]
      exact ⟨free,rfl,Function.update_self _ _ _⟩
    · exact sound
  | looping k =>
    simp only [Program.turn,place]
    refine sound.beside (othersOnly_refl _) rfl ?_
    simp only [Program.mainStep,place]
    split
    · exact .inl rfl
    · refine .inr ⟨rfl,?_⟩
      simp only [MainAt.swapAt]
      split <;> simp
  | remapping k =>
    obtain ⟨page,swap,there⟩ := mapped_place sound (by simp only [place,MainAt.swapAt]; split <;> simp)
    simp only [Program.turn,place,Space.placed,swap]
    refine sound.place _ there ?_
    simp only [Program.mainStep,place]
    exact ⟨page,rfl,Function.update_self _ _ _⟩
  | unmapping | destroying =>
    obtain ⟨page,swap,there⟩ := mapped_place sound (by simp [place,MainAt.swapAt])
    simp only [Program.turn,place,Space.placed,swap]
    refine sound.place _ there ?_
    simp only [Program.mainStep,place]
    exact ⟨page,rfl,.inl (Function.update_self _ _ _)⟩
  | terminated =>
    simp only [Program.turn,place]
    exact sound.beside (othersOnly_refl _) rfl (.inl (by simp only [Program.mainStep,place]))

theorem turn_sound (sound : PagesSound layout s) (turn : Turn) : PagesSound layout (program.turn s turn) := by
  cases turn with
  | main free => exact main_sound sound free
  | handler => exact sound.beside (othersOnly_refl _) rfl (.inl (by rw [Program.turn,handlerStep_main]))
  | map page id =>
    simp only [Program.turn]
    split
    next unmapped => exact sound.beside (othersOnly_update (.inl unmapped) (.inr ⟨id,rfl⟩)) rfl (.inl rfl)
    · exact sound
  | release page =>
    simp only [Program.turn]
    split
    next id own => exact sound.beside (othersOnly_update (.inr ⟨id,own⟩) (.inl rfl)) rfl (.inl rfl)
    · exact sound

theorem run_sound (program : Program) (layout : Layout) (turns : List Turn) :
    PagesSound layout (Tracing.after program.turn (.start layout) turns) := by
  induction turns using List.reverseRecOn with
  | nil => exact start_sound layout
  | append_singleton turns turn ih =>
    rw [Tracing.after_append]
    exact turn_sound ih turn

section Taken

variable {page id : Nat} (other : s.pages page = some (.other id))
include other

theorem update_elsewhere {free : Nat} (unmapped : s.pages free = none) (owner : Option Owner) :
    Function.update s.pages free owner page = some (.other id) := by
  have ne : page ≠ free := by
    rintro rfl
    rw [other] at unmapped
    contradiction
  rw [Function.update_of_ne ne,other]

theorem held_elsewhere (held : s.Held) : s.swap ≠ some page := by
  obtain ⟨own,place,mapped⟩ := held
  intro same
  obtain rfl := Option.some.inj (place.symm.trans same)
  rw [mapped] at other
  cases other

theorem placed_takes_iff {owner : Option Owner} (ne : owner ≠ some (.other id)) :
    s.placed owner page ≠ some (.other id) ↔ s.swap = some page := by
  unfold Space.placed
  cases swap : s.swap with
  | none => simp [other]
  | some place =>
    by_cases same : page = place
    · subst same
      simp [ne]
    · simp [Function.update_of_ne same,other,Ne.symm same]

end Taken

/-- A step of `main` takes a page from another only at the place of the swap page, by putting the invoke
page there or by unmapping it at the end. -/
theorem main_takes_iff (sound : PagesSound layout s) (free : Nat) {page id : Nat} (other : s.pages page = some (.other id)) :
    (program.turn s (.main free)).pages page ≠ some (.other id) ↔
      s.swap = some page ∧ (s.client.main = .destroying ∨ ∃ k, 0 < k ∧ s.client.main = .remapping k) := by
  have here := sound.swap
  cases place : s.client.main with
  | mapping =>
    simp only [Program.turn,place]
    split
    next unmapped => simp [update_elsewhere other unmapped]
    · simp [other]
  | remapping k =>
    simp only [Program.turn,place]
    rw [placed_takes_iff other (by simp)]
    constructor
    · intro swap
      refine ⟨swap,.inr ⟨k,?_,rfl⟩⟩
      by_contra first
      obtain rfl : k = 0 := by omega
      rw [place] at here
      exact held_elsewhere other here swap
    · exact And.left
  | unmapping k =>
    rw [place] at here
    simp only [Program.turn,place]
    rw [placed_takes_iff other (by simp)]
    simp [held_elsewhere other here]
  | destroying =>
    simp only [Program.turn,place]
    rw [placed_takes_iff other (by simp)]
    simp
  | _ => simp [Program.turn,place,other]

/-- Over every run: the three buffers stay mapped; from the second round on the place of the swap page is not the
client's own any more; and a page of another goes away, in any step, exactly if its owner unmaps it or it has
come to lie at that place when `main` moves the invoke page there or unmaps it at the end. -/
theorem page_lost_iff (program : Program) (layout : Layout) (turns : List Turn) (s : Space)
    (ran : Tracing.after program.turn (.start layout) turns = s) :
    (s.pages layout.request = some .request ∧ s.pages layout.response = some .response ∧
      s.pages layout.invoke = some .invoke) ∧
    (∀ k, 0 < k → s.client.main = .looping k → ∃ page, s.swap = some page ∧ Foreign s.pages page) ∧
    ∀ page id turn, s.pages page = some (.other id) → ((program.turn s turn).pages page ≠ some (.other id) ↔
      turn = .release page ∨ (∃ free, turn = .main free) ∧ s.swap = some page ∧
        (s.client.main = .destroying ∨ ∃ k, 0 < k ∧ s.client.main = .remapping k)) := by
  have sound := run_sound program layout turns
  rw [ran] at sound
  refine ⟨⟨sound.request,sound.response,sound.invoke⟩,fun k later place => ?_,fun page id turn other => ?_⟩
  · have here := sound.swap
    simp only [place,MainAt.swapAt,if_neg (Nat.ne_of_gt later)] at here
    exact here
  cases turn with
  | main free =>
    rw [main_takes_iff sound free other]
    simp
  | handler => simp [Program.turn,other]
  | map free owner =>
    simp only [Program.turn]
    split
    next unmapped => simp [update_elsewhere other unmapped]
    · simp [other]
  | release free =>
    by_cases same : free = page
    · subst same
      simp [Program.turn,other]
    · have kept : (program.turn s (.release free)).pages page = some (.other id) := by
        simp only [Program.turn]
        split
        · simp [Function.update_of_ne (Ne.symm same),other]
        · exact other
      simp [kept,same]

/-- Two rounds without a registration; before the second a page is mapped at the place. -/
theorem page_lost_second_round :
    ∃ s, Tracing.after (Program.turn ⟨.withFib 1000 0x401000, false, 1, 2⟩) (.start ⟨1, 2, 3, by decide, by decide⟩)
        (List.replicate 20 (.main 7) ++ [.map 7 9]) = s ∧ s.pages 7 = some (.other 9) ∧
      (Program.turn ⟨.withFib 1000 0x401000, false, 1, 2⟩ s (.main 0)).pages 7 ≠ some (.other 9) :=
  ⟨_,rfl,rfl,((page_lost_iff _ _ _ _ rfl).2.2 7 9 (.main 0) rfl).mpr (.inr ⟨⟨0,rfl⟩,rfl,.inr ⟨1,by decide,rfl⟩⟩)⟩

end Ndp.Cpp.EdgeClient
