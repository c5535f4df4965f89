import Ndp.CStd
import Ndp.CppStd
import Ndp.FaultPages
import Ndp.Scheduling

/-! The prototype: `main` reads its way through a buffer no page of which is there, and the thread of
the fault handler answers every fault with a page full of one letter. A step is an access to the
buffer or what the handler does for one event, of whichever thread comes next. -/
namespace Ndp.Cpp.Prototype

structure Env where
  pageSize : UInt64
  uffd : Int32
  api : Int32
  mapped : Option UInt64
  register : Int32
  threadCreate : Int32

structure Setup where
  pageSize : UInt64
  buf : UInt64
  registered : Bool

/-- `main` up to its loop. The result of the registration is compared with zero twice. -/
def setUp (env : Env) : Outcome Setup :=
  if env.uffd < 0 then .exited ("syscall(userfaultdf): failed with " ++ toString env.uffd)
  else if env.api < 0 then .exited ("ioctl(uffd, UFFDIO_API, ...): failed failed with " ++ toString env.api)
  else
    match env.mapped with
    | none => .exited "mmap: failed to map private anonymous virtual memory"
    | some buf =>
      let result : Int32 := if env.register < 0 then 1 else 0
      if result < 0 then .exited ("ioctl(uffd, UFFDIO_REGISTER, ...): failed with " ++ toString result)
      else if env.threadCreate ≠ 0 then .exited ("pthread_create: failed with " ++ toString env.threadCreate)
      else .returned ⟨env.pageSize, buf, 0 ≤ env.register⟩

theorem setUp_registered {env : Env} {setup : Setup} (begun : setUp env = .returned setup) :
    setup.registered = decide (0 ≤ env.register) := by
  have never : ¬(if env.register < 0 then (1 : Int32) else 0) < 0 := by split <;> decide
  unfold setUp at begun
  split at begun
  · contradiction
  split at begun
  · contradiction
  split at begun
  · contradiction
  simp only [if_neg never] at begun
  split at begun
  · contradiction
  · rw [← Outcome.returned.inj begun]

inductive MainAt where
  | looping (l : Int32)
  | reading (l : Int32)
  | faulted (l : Int32)
  | exited
  | overflowed
  deriving DecidableEq, Repr

inductive HandlerAt where
  | starting
  | polling
  | serving (reqAddr : UInt64)
  | panicked
  deriving DecidableEq, Repr

inductive Thread where
  | main
  | handler
  deriving DecidableEq, Repr

/-- The faults are those not read yet; `page` is the handler's own, by offset; an address of the buffer
has a byte if its page is there. -/
structure State where
  main : MainAt
  handler : HandlerAt
  faults : List UInt64
  page : UInt64 → UInt8
  numFaults : UInt64
  mem : UInt64 → Option UInt8
  out : List (UInt64 × UInt8)

def State.start : State := ⟨.looping 0xf, .starting, [], fun _ => 0, 0, fun _ => none, []⟩

def memset (page : UInt64 → UInt8) (value : UInt8) (len : UInt64) : UInt64 → UInt8 :=
  fun offset => if offset < len then value else page offset

/-- `UFFDIO_COPY` to a page that is not there. -/
def copyPage (mem : UInt64 → Option UInt8) (dst len : UInt64) (page : UInt64 → UInt8) : UInt64 → Option UInt8 :=
  fun addr => if dst.toNat ≤ addr.toNat ∧ addr.toNat < dst.toNat + len.toNat then some (page (addr - dst)) else mem addr

/-- `'A' + (num_faults % 20)`. -/
def fillValue (numFaults : UInt64) : UInt8 := (65 + numFaults % 20).toUInt8

namespace Setup

variable (setup : Setup)

def mappedMemSize : UInt64 := (1000 : UInt32).toUInt64 * setup.pageSize

def addr (l : Int32) : UInt64 := setup.buf + C.widen l

/-- Without a registration the kernel itself gives a page of zeros. -/
def mainStep (s : State) : State :=
  match s.main with
  | .looping l => { s with main := if C.widen l < setup.mappedMemSize then .reading l else .exited }
  | .reading l =>
    match s.mem (setup.addr l) with
    | some c =>
      { s with
        out := s.out ++ [(setup.addr l, c)]
        main := if l.toInt + 0x1000 < 2147483648 then .looping (l + 0x1000) else .overflowed }
    | none =>
      if setup.registered then { s with main := .faulted l, faults := s.faults ++ [setup.addr l] }
      else { s with mem := copyPage s.mem (pageAlign (setup.addr l) setup.pageSize) setup.pageSize fun _ => 0 }
  | .faulted _ | .exited | .overflowed => s

/-- A thread that waits for the page goes on. -/
def wake (dst : UInt64) : MainAt → MainAt
  | .faulted l => if pageAlign (setup.addr l) setup.pageSize = dst then .reading l else .faulted l
  | position => position

def handlerStep (s : State) : State :=
  match s.handler with
  | .starting => { s with handler := .polling }
  | .polling =>
    match s.faults with
    | [] => s
    | reqAddr :: rest => { s with handler := .serving reqAddr, faults := rest }
  | .serving reqAddr =>
    let page := memset s.page (fillValue s.numFaults) setup.pageSize
    let s := { s with page := page, numFaults := s.numFaults + 1 }
    let dst := pageAlign reqAddr setup.pageSize
    if (s.mem dst).isSome then { s with handler := .panicked }
    else { s with mem := copyPage s.mem dst setup.pageSize page, handler := .polling, main := setup.wake dst s.main }
  | .panicked => s

/-- Both threads are gone once the process has left. -/
def step (s : State) (thread : Thread) : State :=
  if s.main = .exited ∨ s.handler = .panicked then s
  else
    match thread with
    | .main => setup.mainStep s
    | .handler => setup.handlerStep s

end Setup

/-- A page size as there are, a buffer on a page boundary that does not wrap around. For larger pages
the counter of the loop, an `int`, does not reach to the end of the buffer. -/
structure Setup.Lawful (setup : Setup) (shift : Nat) : Prop where
  power : setup.pageSize.toNat = 2 ^ shift
  least : 12 ≤ shift
  most : shift ≤ 21
  boundary : 2 ^ shift ∣ setup.buf.toNat
  room : setup.buf.toNat + 1000 * 2 ^ shift < 2 ^ 64

def offset (i : Nat) : Nat := 15 + 4096 * i

def letter (page : Nat) : UInt8 := .ofNat ('A'.toNat + page % 20)

namespace Setup

variable (setup : Setup)

def pageOf (i : Nat) : Nat := offset i / setup.pageSize.toNat

/-- The pages that are there once so many rounds are through. -/
def touched : Nat → Nat
  | 0 => 0
  | i + 1 => setup.pageOf i + 1

def rounds : Nat := (1000 * setup.pageSize.toNat + 4080) / 4096

/-- The byte all over a page. -/
def byteOf (page : Nat) : UInt8 := if setup.registered then letter page else 0

/-- What a round prints: the address and the character there. -/
def line (i : Nat) : UInt64 × UInt8 := (setup.buf + .ofNat (offset i), setup.byteOf (setup.pageOf i))

end Setup

theorem round_iff (setup : Setup) (i : Nat) : i < setup.rounds ↔ offset i < 1000 * setup.pageSize.toNat := by
  unfold Setup.rounds offset
  omega

theorem widen_counter {l : Int32} {i : Nat} (counter : l.toInt = offset i) : (C.widen l).toNat = offset i := by
  have wide := C.widen_toNat l
  rw [if_pos (by omega),counter] at wide
  exact_mod_cast wide

theorem addr_eq (setup : Setup) {l : Int32} {i : Nat} (counter : l.toInt = offset i) :
    setup.addr l = setup.buf + .ofNat (offset i) := by
  rw [Setup.addr,← widen_counter counter,UInt64.ofNat_toNat]

/-- The first pages are there, each full of its byte, and no other. -/
def Filled (setup : Setup) (n : Nat) (mem : UInt64 → Option UInt8) : Prop :=
  ∀ (addr : UInt64) (d : Nat), addr.toNat = setup.buf.toNat + d → d < 1000 * setup.pageSize.toNat →
    mem addr = if d / setup.pageSize.toNat < n then some (setup.byteOf (d / setup.pageSize.toNat)) else none

section Pages

variable {setup : Setup} {shift : Nat} (laws : setup.Lawful shift)
include laws

theorem pageSize_range : 4096 ≤ setup.pageSize.toNat ∧ setup.pageSize.toNat ≤ 2097152 := by
  rw [laws.power]
  exact ⟨Nat.pow_le_pow_right (by decide : 0 < 2) laws.least,Nat.pow_le_pow_right (by decide : 0 < 2) laws.most⟩

theorem mappedMemSize_toNat : setup.mappedMemSize.toNat = 1000 * setup.pageSize.toNat := by
  have range := pageSize_range laws
  rw [Setup.mappedMemSize,UInt64.toNat_mul]
  exact Nat.mod_eq_of_lt (by simp; omega)

theorem pageOf_succ (i : Nat) : setup.pageOf i ≤ setup.pageOf (i + 1) ∧ setup.pageOf (i + 1) ≤ setup.pageOf i + 1 := by
  have range := pageSize_range laws
  have positive : 0 < setup.pageSize.toNat := by omega
  have next : offset (i + 1) = offset i + 4096 := by simp [offset]; omega
  unfold Setup.pageOf
  rw [next,← Nat.add_div_right _ positive]
  exact ⟨Nat.div_le_div_right (by omega),Nat.div_le_div_right (by omega)⟩

theorem touched_range (i : Nat) : setup.pageOf i ≤ setup.touched i ∧ setup.touched i ≤ setup.pageOf i + 1 := by
  have range := pageSize_range laws
  cases i with
  | zero =>
    have first : setup.pageOf 0 = 0 := Nat.div_eq_of_lt (by simp [offset]; omega)
    simp [first,Setup.touched]
  | succ i =>
    have := pageOf_succ laws i
    simp only [Setup.touched]
    omega

theorem pageOf_lt {i : Nat} (inside : i < setup.rounds) : setup.pageOf i < 1000 := by
  have range := pageSize_range laws
  have := (round_iff setup i).mp inside
  exact Nat.div_lt_of_lt_mul (by rwa [Nat.mul_comm])

theorem addr_toNat {l : Int32} {i : Nat} (counter : l.toInt = offset i) (inside : i < setup.rounds) :
    (setup.addr l).toNat = setup.buf.toNat + offset i := by
  have room := laws.room
  rw [← laws.power] at room
  have less := (round_iff setup i).mp inside
  rw [Setup.addr,UInt64.toNat_add,widen_counter counter]
  exact Nat.mod_eq_of_lt (by omega)

theorem pageAlign_toNat {addr : UInt64} {d : Nat} (place : addr.toNat = setup.buf.toNat + d) :
    (pageAlign addr setup.pageSize).toNat = setup.buf.toNat + d / setup.pageSize.toNat * setup.pageSize.toNat := by
  obtain ⟨pages,whole⟩ := laws.boundary
  have positive : 0 < 2 ^ shift := Nat.two_pow_pos shift
  rw [pageAlign,mask_offset laws.power,place,laws.power,whole,Nat.mul_add_div positive,Nat.add_mul,Nat.mul_comm pages]

theorem copyPage_filled {n : Nat} {mem : UInt64 → Option UInt8} (filled : Filled setup n mem) {dst : UInt64}
    (place : dst.toNat = setup.buf.toNat + n * setup.pageSize.toNat) {page : UInt64 → UInt8}
    (full : ∀ offset, offset < setup.pageSize → page offset = setup.byteOf n) :
    Filled setup (n + 1) (copyPage mem dst setup.pageSize page) := by
  have positive : 0 < setup.pageSize.toNat := by
    have := pageSize_range laws
    omega
  intro addr d there inside
  have within : (dst.toNat ≤ addr.toNat ∧ addr.toNat < dst.toNat + setup.pageSize.toNat) ↔
      d / setup.pageSize.toNat = n := by
    rw [Nat.div_eq_iff positive,place,there]
    constructor <;> intro both <;> omega
  unfold copyPage
  by_cases own : d / setup.pageSize.toNat = n
  · have both := within.mpr own
    have less : addr - dst < setup.pageSize := by
      rw [UInt64.lt_iff_toNat_lt,UInt64.toNat_sub_of_le _ _ (UInt64.le_iff_toNat_le.mpr both.1)]
      omega
    rw [if_pos both,full _ less,own,if_pos (Nat.lt_succ_self n)]
  · rw [if_neg (mt within.mp own),filled addr d there inside]
    have same : d / setup.pageSize.toNat < n + 1 ↔ d / setup.pageSize.toNat < n := by omega
    simp only [same]

end Pages

theorem fillValue_eq {n : Nat} (small : n < 1000) : fillValue (.ofNat n) = letter n := by
  apply UInt8.toNat_inj.mp
  have value : (UInt64.ofNat n).toNat = n := UInt64.toNat_ofNat_of_lt' (by unfold UInt64.size; omega)
  simp only [fillValue,letter,UInt64.toNat_toUInt8,UInt64.toNat_add,UInt64.toNat_mod,value,UInt8.toNat_ofNat']
  change (65 + n % 20) % 2 ^ 64 % 256 = (65 + n % 20) % 2 ^ 8
  omega

/-- The handler waits for an event, or is about to. -/
def Waiting (s : State) : Prop := s.handler = .starting ∨ s.handler = .polling

/-- So many pages are there, and so many faults have been counted. -/
structure Holds (setup : Setup) (s : State) (n : Nat) : Prop where
  filled : Filled setup n s.mem
  counted : s.numFaults = if setup.registered then .ofNat n else 0

/-- Where the two threads are when so many rounds are through. -/
inductive Stage (setup : Setup) (s : State) (i : Nat) : Prop where
  | looping (l : Int32) : s.main = .looping l → l.toInt = offset i → i ≤ setup.rounds → s.faults = [] → Waiting s →
      Holds setup s (setup.touched i) → Stage setup s i
  | reading (l : Int32) (n : Nat) : s.main = .reading l → l.toInt = offset i → i < setup.rounds → s.faults = [] →
      Waiting s → n = setup.touched i ∨ n = setup.pageOf i + 1 → Holds setup s n → Stage setup s i
  | asked (l : Int32) : s.main = .faulted l → l.toInt = offset i → i < setup.rounds → setup.registered = true →
      s.faults = [setup.addr l] → Waiting s → Holds setup s (setup.pageOf i) → Stage setup s i
  | served (l : Int32) : s.main = .faulted l → l.toInt = offset i → i < setup.rounds → setup.registered = true →
      s.faults = [] → s.handler = .serving (setup.addr l) → Holds setup s (setup.pageOf i) → Stage setup s i
  | ended : s.main = .exited → i = setup.rounds → s.handler ≠ .panicked → Holds setup s (setup.touched i) → Stage setup s i

theorem Waiting.alive {s : State} (waiting : Waiting s) : s.handler ≠ .panicked := by
  rcases waiting with starting | polling
  · simp [starting]
  · simp [polling]

theorem Stage.sound {setup : Setup} {s : State} {i : Nat} (stage : Stage setup s i) :
    i ≤ setup.rounds ∧ s.handler ≠ .panicked ∧ s.main ≠ .overflowed := by
  cases stage with
  | looping l place counter bound quiet waiting => exact ⟨bound,waiting.alive,by simp [place]⟩
  | reading l n place counter inside quiet waiting => exact ⟨inside.le,waiting.alive,by simp [place]⟩
  | asked l place counter inside registered faults waiting => exact ⟨inside.le,waiting.alive,by simp [place]⟩
  | served l place counter inside registered quiet serving => exact ⟨inside.le,by simp [serving],by simp [place]⟩
  | ended place last alive => exact ⟨last.le,alive,by simp [place]⟩

def Due (setup : Setup) (s : State) : Prop := ∃ i, Stage setup s i ∧ s.out = (List.range i).map setup.line

/-- Rounds left to a counter. -/
def Setup.roundsLeft (setup : Setup) (l : Int32) : Nat := setup.rounds - (l.toInt.toNat - 15) / 4096

def Setup.work (setup : Setup) (s : State) : Nat :=
  (match s.main with
    | .looping l => 6 * setup.roundsLeft l + 1
    | .reading l => if (s.mem (setup.addr l)).isSome then 6 * setup.roundsLeft l - 3 else 6 * setup.roundsLeft l
    | .faulted l =>
      match s.handler with
      | .serving _ => 6 * setup.roundsLeft l - 2
      | _ => 6 * setup.roundsLeft l - 1
    | .exited | .overflowed => 0) + if s.handler = .starting then 1 else 0

theorem roundsLeft_eq {setup : Setup} {l : Int32} {i : Nat} (counter : l.toInt = offset i) :
    setup.roundsLeft l = setup.rounds - i := by
  have : (l.toInt.toNat - 15) / 4096 = i := by
    rw [counter,Int.toNat_natCast,offset]
    omega
  rw [Setup.roundsLeft,this]

section Steps

variable {setup : Setup} {shift : Nat} {s : State} {i : Nat} {l : Int32}

/-- A step that does something: the lines stay those due, and less is left to do. -/
def Advances (setup : Setup) (s s' : State) : Prop := Due setup s' ∧ setup.work s' < setup.work s

theorem byte_there (laws : setup.Lawful shift) {n : Nat} (holds : Holds setup s n) (counter : l.toInt = offset i)
    (inside : i < setup.rounds) :
    s.mem (setup.addr l) = if setup.pageOf i < n then some (setup.byteOf (setup.pageOf i)) else none :=
  holds.filled _ _ (addr_toNat laws counter inside) ((round_iff setup i).mp inside)

theorem work_there (laws : setup.Lawful shift) (place : s.main = .reading l) (counter : l.toInt = offset i)
    (inside : i < setup.rounds) (holds : Holds setup s (setup.pageOf i + 1)) :
    setup.work s = 6 * (setup.rounds - i) - 3 + if s.handler = .starting then 1 else 0 := by
  have byte := byte_there laws holds counter inside
  rw [if_pos (Nat.lt_succ_self _)] at byte
  simp only [Setup.work,place,byte,Option.isSome_some,if_true,roundsLeft_eq counter]

theorem looping_advances (laws : setup.Lawful shift) (place : s.main = .looping l) (counter : l.toInt = offset i)
    (bound : i ≤ setup.rounds) (quiet : s.faults = []) (waiting : Waiting s) (holds : Holds setup s (setup.touched i))
    (out : s.out = (List.range i).map setup.line) : Advances setup s (setup.mainStep s) := by
  have range := pageSize_range laws
  have goesOn : C.widen l < setup.mappedMemSize ↔ i < setup.rounds := by
    rw [UInt64.lt_iff_toNat_lt,widen_counter counter,mappedMemSize_toNat laws,round_iff]
  simp only [Setup.mainStep,place]
  by_cases inside : i < setup.rounds
  · rw [if_pos (goesOn.mpr inside)]
    refine ⟨⟨i,.reading l _ rfl counter inside quiet waiting (.inl rfl) ⟨holds.filled,holds.counted⟩,out⟩,?_⟩
    simp only [Setup.work,place,roundsLeft_eq counter]
    split <;> omega
  · rw [if_neg (mt goesOn.mp inside)]
    refine ⟨⟨i,.ended rfl (by omega) waiting.alive ⟨holds.filled,holds.counted⟩,out⟩,?_⟩
    simp only [Setup.work,place]
    omega

theorem counter_succ (laws : setup.Lawful shift) (counter : l.toInt = offset i) (inside : i < setup.rounds) :
    l.toInt + 0x1000 < 2147483648 ∧ (l + 0x1000).toInt = offset (i + 1) := by
  have range := pageSize_range laws
  have less := (round_iff setup i).mp inside
  have next : offset (i + 1) = offset i + 4096 := by simp [offset]; omega
  refine ⟨by omega,?_⟩
  have step : (0x1000 : Int32).toInt = 4096 := by decide
  rw [Int32.toInt_add,step,counter,next,Int.bmod_eq_of_le (by omega) (by omega)]
  omega

theorem reading_advances (laws : setup.Lawful shift) {n : Nat} (place : s.main = .reading l) (counter : l.toInt = offset i)
    (inside : i < setup.rounds) (quiet : s.faults = []) (waiting : Waiting s)
    (pages : n = setup.touched i ∨ n = setup.pageOf i + 1) (holds : Holds setup s n)
    (out : s.out = (List.range i).map setup.line) : Advances setup s (setup.mainStep s) := by
  have touched := touched_range laws i
  have byte := byte_there laws holds counter inside
  have left := @roundsLeft_eq setup l i counter
  simp only [Setup.mainStep,place]
  by_cases there : setup.pageOf i < n
  · rw [if_pos there] at byte
    obtain rfl : n = setup.touched (i + 1) := by
      simp only [Setup.touched]
      omega
    obtain ⟨fits,next⟩ := counter_succ laws counter inside
    simp only [byte,if_pos fits]
    refine ⟨⟨i + 1,.looping _ rfl next inside quiet waiting ⟨holds.filled,holds.counted⟩,?_⟩,?_⟩
    · rw [out,List.range_succ,List.map_append,List.map_singleton,addr_eq setup counter]
      rfl
    · simp only [Setup.work,place,byte,Option.isSome_some,if_true,left,roundsLeft_eq next]
      omega
  · rw [if_neg there] at byte
    obtain rfl : n = setup.pageOf i := by omega
    simp only [byte]
    by_cases registered : setup.registered = true
    · rw [if_pos registered,quiet]
      refine ⟨⟨i,.asked l rfl counter inside registered rfl waiting ⟨holds.filled,holds.counted⟩,out⟩,?_⟩
      rcases waiting with starting | polling
      · simp [Setup.work,place,byte,starting,left]
        omega
      · simp [Setup.work,place,byte,polling,left]
        omega
    · rw [if_neg registered]
      have zero : setup.byteOf (setup.pageOf i) = 0 := by simp [Setup.byteOf,registered]
      have filled : Filled setup _ (copyPage s.mem _ setup.pageSize fun _ => 0) := copyPage_filled laws holds.filled
        (pageAlign_toNat laws (addr_toNat laws counter inside)) (fun _ _ => zero.symm)
      have holds' : Holds setup
          { s with
            main := .reading l
            mem := copyPage s.mem (pageAlign (setup.addr l) setup.pageSize) setup.pageSize (fun _ => 0) }
          (setup.pageOf i + 1) := ⟨filled,by simpa [registered] using holds.counted⟩
      refine ⟨⟨i,.reading l _ rfl counter inside quiet waiting (.inr rfl) holds',out⟩,?_⟩
      rw [work_there laws rfl counter inside holds']
      simp only [Setup.work,place,byte,Option.isSome_none,Bool.false_eq_true,if_false,left]
      omega

theorem starting_advances (stage : Stage setup s i) (out : s.out = (List.range i).map setup.line)
    (starting : s.handler = .starting) (running : s.main ≠ .exited) : Advances setup s (setup.handlerStep s) := by
  simp only [Setup.handlerStep,starting]
  cases stage with
  | looping l place counter bound quiet waiting holds =>
    refine ⟨⟨i,.looping l place counter bound quiet (.inr rfl) ⟨holds.filled,holds.counted⟩,out⟩,?_⟩
    simp [Setup.work,place,starting]
  | reading l n place counter inside quiet waiting pages holds =>
    refine ⟨⟨i,.reading l n place counter inside quiet (.inr rfl) pages ⟨holds.filled,holds.counted⟩,out⟩,?_⟩
    simp [Setup.work,place,starting]
  | asked l place counter inside registered faults waiting holds =>
    refine ⟨⟨i,.asked l place counter inside registered faults (.inr rfl) ⟨holds.filled,holds.counted⟩,out⟩,?_⟩
    simp [Setup.work,place,starting]
  | served l place counter inside registered quiet serving holds =>
    rw [starting] at serving
    contradiction
  | ended place => exact absurd place running

theorem serving_advances (laws : setup.Lawful shift) (place : s.main = .faulted l) (counter : l.toInt = offset i)
    (inside : i < setup.rounds) (registered : setup.registered = true) (quiet : s.faults = [])
    (serving : s.handler = .serving (setup.addr l)) (holds : Holds setup s (setup.pageOf i))
    (out : s.out = (List.range i).map setup.line) : Advances setup s (setup.handlerStep s) := by
  have few := pageOf_lt laws inside
  have aligned := pageAlign_toNat laws (addr_toNat laws counter inside)
  have counted : s.numFaults = .ofNat (setup.pageOf i) := by simpa [registered] using holds.counted
  have value : setup.byteOf (setup.pageOf i) = fillValue s.numFaults := by
    rw [counted,fillValue_eq few,Setup.byteOf,if_pos registered]
  have positive : 0 < setup.pageSize.toNat := by
    have := pageSize_range laws
    omega
  have missing : s.mem (pageAlign (setup.addr l) setup.pageSize) = none := by
    rw [holds.filled _ _ aligned (Nat.mul_lt_mul_of_pos_right few positive),Nat.mul_div_cancel _ positive]
    exact if_neg (Nat.lt_irrefl _)
  have filled : Filled setup _ (copyPage s.mem _ setup.pageSize (memset s.page (fillValue s.numFaults) setup.pageSize)) :=
    copyPage_filled laws holds.filled aligned (fun offset less => by rw [memset,if_pos less,value])
  simp only [Setup.handlerStep,serving,missing,Setup.wake,place]
  simp only [Option.isSome_none,Bool.false_eq_true,if_false,if_true]
  have holds' : Holds setup
      { s with
        page := memset s.page (fillValue s.numFaults) setup.pageSize
        numFaults := s.numFaults + 1
        mem := copyPage s.mem (pageAlign (setup.addr l) setup.pageSize) setup.pageSize
          (memset s.page (fillValue s.numFaults) setup.pageSize)
        handler := .polling
        main := .reading l } (setup.pageOf i + 1) := by
    refine ⟨filled,?_⟩
    rw [if_pos registered,counted,UInt64.ofNat_add]
    rfl
  refine ⟨⟨i,.reading l _ rfl counter inside quiet (.inr rfl) (.inr rfl) holds',out⟩,?_⟩
  rw [work_there laws rfl counter inside holds']
  simp only [Setup.work,place,serving,roundsLeft_eq counter,reduceCtorEq,if_false]
  omega

theorem step_advances (laws : setup.Lawful shift) (due : Due setup s) (thread : Thread) :
    setup.step s thread = s ∨ Advances setup s (setup.step s thread) := by
  obtain ⟨i,stage,out⟩ := due
  unfold Setup.step
  split
  · exact .inl rfl
  · next running =>
    obtain ⟨running,_⟩ := not_or.mp running
    cases thread with
    | main =>
      cases stage with
      | looping l place counter bound quiet waiting holds =>
        exact .inr (looping_advances laws place counter bound quiet waiting holds out)
      | reading l n place counter inside quiet waiting pages holds =>
        exact .inr (reading_advances laws place counter inside quiet waiting pages holds out)
      | asked l place | served l place => exact .inl (by simp only [Setup.mainStep,place])
      | ended place => exact absurd place running
    | handler =>
      by_cases starting : s.handler = .starting
      · exact .inr (starting_advances stage out starting running)
      · cases stage with
        | looping l place counter bound quiet waiting holds =>
          exact .inl (by simp only [Setup.handlerStep,waiting.resolve_left starting,quiet])
        | reading l n place counter inside quiet waiting pages holds =>
          exact .inl (by simp only [Setup.handlerStep,waiting.resolve_left starting,quiet])
        | asked l place counter inside registered faults waiting holds =>
          right
          have polling := waiting.resolve_left starting
          simp only [Setup.handlerStep,polling,faults]
          refine ⟨⟨i,.served l place counter inside registered rfl rfl ⟨holds.filled,holds.counted⟩,out⟩,?_⟩
          simp only [Setup.work,place,polling,roundsLeft_eq counter]
          simp
          omega
        | served l place counter inside registered quiet serving holds =>
          exact .inr (serving_advances laws place counter inside registered quiet serving holds out)
        | ended place => exact absurd place running

theorem due_wears (laws : setup.Lawful shift) :
    Scheduling.Wears setup.step id (fun s thread => setup.step s thread = s) (Due setup) setup.work :=
  .of_advances (fun _ _ same => same) fun _ thread due moves => (step_advances laws due thread).resolve_left moves

theorem due_start (setup : Setup) : Due setup .start := by
  refine ⟨0,.looping 0xf rfl (by decide) (Nat.zero_le _) rfl (.inl rfl) ⟨?_,?_⟩,rfl⟩
  · intro addr d _ _
    simp [Setup.touched,State.start]
  · simp [Setup.touched,State.start]

theorem touched_rounds (laws : setup.Lawful shift) : setup.touched setup.rounds = 1000 := by
  have range := pageSize_range laws
  have positive : 0 < setup.pageSize.toNat := by omega
  obtain ⟨r,last⟩ : ∃ r, setup.rounds = r + 1 := ⟨setup.rounds - 1,by unfold Setup.rounds; omega⟩
  have inside := (round_iff setup r).mp (by omega)
  have beyond := mt (round_iff setup (r + 1)).mpr (by omega)
  have next : offset (r + 1) = offset r + 4096 := by simp [offset]; omega
  have page : setup.pageOf r = 999 := by
    rw [Setup.pageOf,Nat.div_eq_iff positive]
    omega
  rw [last,Setup.touched,page]

theorem rest_over (laws : setup.Lawful shift) (due : Due setup s) (rest : ∀ thread, setup.step s thread = s) :
    s.main = .exited ∧ s.out = (List.range setup.rounds).map setup.line ∧
      s.numFaults = if setup.registered then 1000 else 0 := by
  obtain ⟨i,stage,out⟩ := due
  have still {s' : State} (same : s' = s) (advances : Advances setup s s') : False := by
    rw [same] at advances
    exact Nat.lt_irrefl _ advances.2
  have runs (main : s.main ≠ .exited) (handler : s.handler ≠ .panicked) :
      setup.mainStep s = s ∧ setup.handlerStep s = s := by
    have both (thread : Thread) := rest thread
    simp only [Setup.step,if_neg (not_or.mpr ⟨main,handler⟩)] at both
    exact ⟨both .main,both .handler⟩
  cases stage with
  | looping l place counter bound quiet waiting holds =>
    exact (still (runs (by simp [place]) waiting.alive).1
      (looping_advances laws place counter bound quiet waiting holds out)).elim
  | reading l n place counter inside quiet waiting pages holds =>
    exact (still (runs (by simp [place]) waiting.alive).1
      (reading_advances laws place counter inside quiet waiting pages holds out)).elim
  | asked l place counter inside registered faults waiting holds =>
    have stuck := (runs (by simp [place]) waiting.alive).2
    rcases waiting with starting | polling
    · have moved := congrArg State.handler stuck
      simp [Setup.handlerStep,starting] at moved
    · have moved := congrArg State.handler stuck
      simp [Setup.handlerStep,polling,faults] at moved
  | served l place counter inside registered quiet serving holds =>
    exact (still (runs (by simp [place]) (by simp [serving])).2
      (serving_advances laws place counter inside registered quiet serving holds out)).elim
  | ended place last alive holds =>
    subst last
    refine ⟨place,out,?_⟩
    rw [holds.counted,touched_rounds laws]
    rfl

end Steps

/-- The whole prototype, in any order of its threads' steps: each line it prints is the next address
with the letter of its page, the pages having their letters in the order of the buffer; neither
a page is answered twice nor the counter overflows; and once both threads have had enough
turns, all lines are printed and a thousand faults counted. A registration that failed is not
noticed, and then every line shows a zero. -/
theorem prototype_reads_letters (env : Env) (setup : Setup) (begun : setUp env = .returned setup) (shift : Nat)
    (laws : setup.Lawful shift) :
    setup.registered = decide (0 ≤ env.register) ∧
    (∀ schedule, ∃ i, i ≤ setup.rounds ∧
      (Tracing.after setup.step .start schedule).out = (List.range i).map setup.line ∧
      (Tracing.after setup.step .start schedule).handler ≠ .panicked ∧
      (Tracing.after setup.step .start schedule).main ≠ .overflowed) ∧
    ∀ rounds : List (List Thread), (∀ round ∈ rounds, ∀ thread, thread ∈ round) → setup.work .start < rounds.length →
      (Tracing.after setup.step .start rounds.flatten).main = .exited ∧
      (Tracing.after setup.step .start rounds.flatten).out = (List.range setup.rounds).map setup.line ∧
      (Tracing.after setup.step .start rounds.flatten).numFaults = if setup.registered then 1000 else 0 := by
  have wears := due_wears laws
  refine ⟨setUp_registered begun,fun schedule => ?_,fun rounds fair enough => ?_⟩
  · obtain ⟨i,stage,out⟩ := wears.good_after (due_start setup) schedule
    obtain ⟨bound,alive,fits⟩ := stage.sound
    exact ⟨i,bound,out,alive,fits⟩
  · apply rest_over laws (wears.good_after (due_start setup) _)
    exact wears.rounds_rest (fun _ => True) (fun _ _ _ idle => absurd trivial idle)
      (fun round member thread _ => ⟨thread,fair round member thread,rfl⟩) (due_start setup) enough

theorem prototype_reads_letters_small :
    (Tracing.after (Setup.step ⟨4096, 0x7f0000000000, true⟩) .start
      (List.replicate 7000 [Thread.main, Thread.handler]).flatten).out =
      (List.range 1000).map (Setup.line ⟨4096, 0x7f0000000000, true⟩) :=
  ((prototype_reads_letters ⟨4096, 3, 0, some 0x7f0000000000, 0, 0⟩ ⟨4096, 0x7f0000000000, true⟩ rfl 12
    ⟨by decide,by decide,by decide,⟨0x7f0000000,by decide⟩,by decide⟩).2.2 (List.replicate 7000 [.main, .handler])
    (fun round member thread => by rw [List.eq_of_mem_replicate member]; cases thread <;> simp)
    (by rw [List.length_replicate]; decide)).2.1

end Ndp.Cpp.Prototype
