import Mathlib.Data.List.Nodup
import Mathlib.Data.List.TakeWhile
import Mathlib.Tactic.Common

/-! A read-write lock as the tasks see it that share it. What it promises is stated promise by promise, so that a
result names those it needs, and one lock keeps them all. A writer is done within the step in which it gets the
lock, so only readers are ever seen holding it. -/

/-- What a task may do, and what can be seen: who reads, and who waits, in order and for which kind of access,
where `true` is for writing. -/
structure RwLock (ι : Type) where
  State : Type
  free : State
  readers : State → List ι
  queue : State → List (ι × Bool)
  blocked : State → ι → Bool → Bool
  wait : State → ι → Bool → State
  pass : State → ι → State
  hold : State → ι → State
  release : State → ι → State

namespace RwLock

variable {ι : Type} [DecidableEq ι] (lock : RwLock ι) {s : lock.State} {i w : ι}

def Waits (s : lock.State) (i : ι) : Prop := i ∈ (lock.queue s).map Prod.fst

instance (s : lock.State) (i : ι) : Decidable (lock.Waits s i) := inferInstanceAs (Decidable (_ ∈ _))

/-- The waiters in front of a task; of one that does not wait yet, all of them. -/
def ahead (s : lock.State) (i : ι) : List (ι × Bool) := (lock.queue s).takeWhile fun waiter => waiter.1 ≠ i

/-- A task that asks in vain waits behind the others, once, until it has had the lock (`pass`) or keeps it for
reading (`hold`), and then it reads until it releases it. -/
structure Books : Prop where
  free_readers : lock.readers lock.free = []
  free_queue : lock.queue lock.free = []
  wait_readers : ∀ s i writes, lock.readers (lock.wait s i writes) = lock.readers s
  wait_again : ∀ s i writes, lock.Waits s i → lock.wait s i writes = s
  wait_queue : ∀ s i writes, ¬lock.Waits s i → lock.queue (lock.wait s i writes) = lock.queue s ++ [(i, writes)]
  pass_readers : ∀ s i, lock.readers (lock.pass s i) = lock.readers s
  pass_queue : ∀ s i, lock.queue (lock.pass s i) = (lock.queue s).filter fun waiter => waiter.1 ≠ i
  hold_readers : ∀ s i, lock.readers (lock.hold s i) = i :: lock.readers s
  hold_queue : ∀ s i, lock.queue (lock.hold s i) = (lock.queue s).filter fun waiter => waiter.1 ≠ i
  release_readers : ∀ s i, lock.readers (lock.release s i) = (lock.readers s).filter (· ≠ i)
  release_queue : ∀ s i, lock.queue (lock.release s i) = lock.queue s

/-- Beside a reader no one writes. -/
def Excludes : Prop := ∀ s, lock.readers s ≠ [] → ∀ i, lock.blocked s i true = true

/-- While a writer waits, only readers in front of it are given the lock. -/
def InTurn : Prop := ∀ s w i, ((lock.queue s).map Prod.fst).Nodup → (w, true) ∈ lock.queue s → i ≠ w →
  lock.blocked s i false = false → i ∈ (lock.ahead s w).map Prod.fst

section Books

variable {lock}

theorem Books.waits_wait (books : lock.Books) (writes : Bool) :
    lock.Waits (lock.wait s i writes) w ↔ lock.Waits s w ∨ w = i := by
  by_cases there : lock.Waits s i
  · rw [books.wait_again s i writes there]
    exact ⟨.inl,fun either => either.elim id fun same => same ▸ there⟩
  · simp [Waits,books.wait_queue s i writes there]

theorem waits_filter {s' : lock.State} (queue : lock.queue s' = (lock.queue s).filter fun waiter => waiter.1 ≠ i)
    (other : w ≠ i) : lock.Waits s' w ↔ lock.Waits s w := by
  simp [Waits,queue,other]

theorem takeWhile_filter_ne (queue : List (ι × Bool)) (other : i ≠ w) :
    (queue.filter fun waiter => waiter.1 ≠ i).takeWhile (fun waiter => waiter.1 ≠ w) =
      (queue.takeWhile fun waiter => waiter.1 ≠ w).filter fun waiter => waiter.1 ≠ i := by
  induction queue with
  | nil => rfl
  | cons waiter queue ih =>
    by_cases this : waiter.1 = i
    · have : waiter.1 ≠ w := this ▸ other
      simp_all
    · by_cases last : waiter.1 = w <;> simp_all

theorem Books.ahead_wait (books : lock.Books) (waits : lock.Waits s w) (writes : Bool) :
    lock.ahead (lock.wait s i writes) w = lock.ahead s w := by
  by_cases there : lock.Waits s i
  · rw [books.wait_again s i writes there]
  · obtain ⟨waiter,member,same⟩ := List.mem_map.mp waits
    rw [ahead,books.wait_queue s i writes there,List.takeWhile_append,if_neg]
    · rfl
    · intro whole
      have all := List.takeWhile_eq_self_iff.mp ((List.takeWhile_prefix _).eq_of_length whole) waiter member
      simp [same] at all

end Books

/-- Those given the lock since an earlier state in which a writer waits, as it still does: they
were in front of it then, and are no longer. -/
structure Passed (before : lock.State) (w : ι) (passed : List ι) (now : lock.State) : Prop where
  waits : (w, true) ∈ lock.queue now
  part : (lock.ahead now w).Sublist (lock.ahead before w)
  count : passed.length + (lock.ahead now w).length ≤ (lock.ahead before w).length
  front : ∀ i ∈ passed, i ∈ (lock.ahead before w).map Prod.fst

namespace Passed

variable {lock} {before now next : lock.State} {passed : List ι}

theorem start (waits : (w, true) ∈ lock.queue before) : lock.Passed before w [] before :=
  ⟨waits,List.Sublist.refl _,by simp,by simp⟩

theorem queue_eq (so : lock.Passed before w passed now) (same : lock.queue next = lock.queue now) :
    lock.Passed before w passed next := by
  obtain ⟨waits,part,count,front⟩ := so
  unfold ahead at part count
  rw [← same] at waits part count
  exact ⟨waits,part,count,front⟩

theorem wait (so : lock.Passed before w passed now) (books : lock.Books) (i : ι) (writes : Bool) :
    lock.Passed before w passed (lock.wait now i writes) := by
  have there : lock.Waits now w := List.mem_map.mpr ⟨_,so.waits,rfl⟩
  have same := @Books.ahead_wait _ _ _ now i w books there writes
  refine ⟨?_,by rw [same]; exact so.part,by rw [same]; exact so.count,so.front⟩
  by_cases waiting : lock.Waits now i
  · rw [books.wait_again now i writes waiting]
    exact so.waits
  · rw [books.wait_queue now i writes waiting]
    exact List.mem_append_left _ so.waits

theorem pass (so : lock.Passed before w passed now) (inTurn : lock.InTurn)
    (once : ((lock.queue now).map Prod.fst).Nodup) (other : i ≠ w) (granted : lock.blocked now i false = false)
    (queue : lock.queue next = (lock.queue now).filter fun waiter => waiter.1 ≠ i) :
    lock.Passed before w (passed ++ [i]) next := by
  obtain ⟨inFront,first,same⟩ := List.mem_map.mp (inTurn now w i once so.waits other granted)
  have fewer : lock.ahead next w = (lock.ahead now w).filter fun waiter => waiter.1 ≠ i := by
    rw [ahead,queue,takeWhile_filter_ne _ other]
    rfl
  have shorter : (lock.ahead next w).length < (lock.ahead now w).length := by
    rw [fewer,List.length_filter_lt_length_iff_exists]
    exact ⟨_,first,by simp [same]⟩
  refine ⟨?_,?_,?_,?_⟩
  · simpa [queue,Ne.symm other] using so.waits
  · rw [fewer]
    exact List.filter_sublist.trans so.part
  · have := so.count
    rw [List.length_append,List.length_singleton]
    omega
  · intro j member
    rcases List.mem_append.mp member with old | new
    · exact so.front j old
    · obtain rfl := List.mem_singleton.mp new
      exact List.mem_map.mpr ⟨_,so.part.subset first,same⟩

end Passed

end RwLock

/-- A lock with one queue, which keeps all promises: a reader passes other readers, but no writer that came before it, and a writer passes
no one. -/
structure QueueLock (ι : Type) where
  readers : List ι
  queue : List (ι × Bool)

namespace QueueLock

variable {ι : Type} [DecidableEq ι]

def ahead (lock : QueueLock ι) (i : ι) : List (ι × Bool) := lock.queue.takeWhile fun waiter => waiter.1 ≠ i

def wait (lock : QueueLock ι) (i : ι) (writes : Bool) : QueueLock ι :=
  if i ∈ lock.queue.map Prod.fst then lock else { lock with queue := lock.queue ++ [(i, writes)] }

theorem wait_readers (lock : QueueLock ι) (i : ι) (writes : Bool) : (lock.wait i writes).readers = lock.readers := by
  unfold wait
  split <;> rfl

def rwLock : RwLock ι where
  State := QueueLock ι
  free := ⟨[], []⟩
  readers := readers
  queue := queue
  blocked lock i writes :=
    if writes then !(lock.readers.isEmpty && (lock.ahead i).isEmpty) else (lock.ahead i).any Prod.snd
  wait := wait
  pass lock i := { lock with queue := lock.queue.filter fun waiter => waiter.1 ≠ i }
  hold lock i := ⟨i :: lock.readers, lock.queue.filter fun waiter => waiter.1 ≠ i⟩
  release lock i := { lock with readers := lock.readers.filter (· ≠ i) }

theorem books : (rwLock : RwLock ι).Books where
  free_readers := rfl
  free_queue := rfl
  wait_readers := wait_readers
  wait_again lock i writes waits := if_pos waits
  wait_queue lock i writes newcomer := by
    have joins : rwLock.wait lock i writes = { lock with queue := lock.queue ++ [(i, writes)] } := if_neg newcomer
    rw [joins]
    rfl
  pass_readers _ _ := rfl
  pass_queue _ _ := rfl
  hold_readers _ _ := rfl
  hold_queue _ _ := rfl
  release_readers _ _ := rfl
  release_queue _ _ := rfl

theorem excludes : (rwLock : RwLock ι).Excludes := by
  intro lock read i
  change lock.readers ≠ [] at read
  simp [rwLock,read]

theorem inTurn : (rwLock : RwLock ι).InTurn := by
  intro lock w i once writer other granted
  have readers : ∀ waiter ∈ lock.ahead i, waiter.2 = false := by simpa [rwLock] using granted
  change i ∈ (lock.queue.takeWhile fun waiter => waiter.1 ≠ w).map Prod.fst
  change ((lock.queue).map Prod.fst).Nodup at once
  change (w,true) ∈ lock.queue at writer
  unfold ahead at readers
  generalize lock.queue = queue at once writer readers ⊢
  induction queue with
  | nil => simp at writer
  | cons waiter queue ih =>
    obtain ⟨j,kind⟩ := waiter
    simp only [List.map_cons,List.nodup_cons] at once
    by_cases own : j = i
    · subst own
      simp [other]
    · have front : (j,kind) :: queue.takeWhile (fun waiter => waiter.1 ≠ i) =
          List.takeWhile (fun waiter => waiter.1 ≠ i) ((j,kind) :: queue) := by simp [own]
      rw [← front] at readers
      obtain rfl : kind = false := readers (j,kind) (by simp)
      have behind : (w,true) ∈ queue := by simpa using writer
      have different : j ≠ w := by
        rintro rfl
        exact once.1 (List.mem_map.mpr ⟨_,behind,rfl⟩)
      rw [List.takeWhile_cons_of_pos (by simpa using different),List.map_cons]
      exact List.mem_cons_of_mem _ (ih once.2 behind (fun waiter member => readers waiter (List.mem_cons_of_mem _ member)))

end QueueLock
