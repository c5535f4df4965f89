import Ndp.MerkleUpdates
import Ndp.Trimming

/-! The loop of the benchmark's `main`, on any input. The index and the value of a change are read
into one string that is not cleared in between, so the line with the index is still there when
the value is parsed. -/
namespace Ndp.Merkle

open Trimming

def isWhitespace (c : Char) : Bool :=
  let n := c.toNat
  (0x09 ≤ n && n ≤ 0x0d) || n = 0x20 || n = 0x85 || n = 0xa0 || n = 0x1680 || (0x2000 ≤ n && n ≤ 0x200a) ||
    n = 0x2028 || n = 0x2029 || n = 0x202f || n = 0x205f || n = 0x3000

def parseDigits (bound : Nat) (acc : Nat) : List Char → Option Nat
  | [] => some acc
  | c :: rest =>
    if c.isDigit then
      let next := acc * 10 + (c.toNat - '0'.toNat)
      if next < bound then parseDigits bound next rest else none
    else none

/-- A plus sign may lead. -/
def digitsOf (s : List Char) : List Char := if s.head? = some '+' then s.tail else s

/-- `str::parse` to an unsigned type whose values are those below the bound. -/
def parse (bound : Nat) (s : List Char) : Option Nat :=
  if digitsOf s = [] then none else parseDigits bound 0 (digitsOf s)

/-- What comes in: characters and, as `none`, bytes that do not decode. -/
abbrev Stdin := List (Option Char)

def splitLine : Stdin → Stdin × Stdin
  | [] => ([], [])
  | c :: rest => if c = some '\n' then ([c], rest) else (c :: (splitLine rest).1, (splitLine rest).2)

def decode : Stdin → Option (List Char)
  | [] => some []
  | none :: _ => none
  | some c :: rest => (decode rest).map (c :: ·)

/-- `read_line` appends a line to the string; the `expect` on its result panics. At the end of the
input the line is empty. -/
def readLine (text : List Char) (input : Stdin) : Except Panic (List Char × Stdin) :=
  match decode (splitLine input).1 with
  | some line => .ok (text ++ line, (splitLine input).2)
  | none => .error (.explicit "Could not read user input.")

structure Session where
  tree : MerkleTree
  input : Stdin

def enterVal (tree : MerkleTree) (nidx : Nat) (userInput : List Char) (input : Stdin) : Except Panic Session := do
  let (userInput, input) ← readLine userInput input
  match parse (2 ^ 8) (trim isWhitespace userInput) with
  | none => return ⟨tree, input⟩
  | some nval =>
    let tree ← tree.set (.ofNat nidx) (.ofNat nval)
    return ⟨tree, input⟩

def iteration (s : Session) : Except Panic Session := do
  let (userInput, input) ← readLine [] s.input
  match parse (2 ^ 64) (trim isWhitespace userInput) with
  | none => return { s with input := input }
  | some nidx => enterVal s.tree nidx userInput input

def iterations : Nat → Session → Except Panic Session
  | 0, s => .ok s
  | n + 1, s => do
    let s' ← iteration s
    iterations n s'

theorem parseDigits_ge {bound acc v : Nat} {s : List Char} (parsed : parseDigits bound acc s = some v) : acc ≤ v := by
  induction s generalizing acc with
  | nil => exact Nat.le_of_eq (Option.some.inj parsed)
  | cons c rest ih =>
    simp only [parseDigits] at parsed
    split at parsed
    · split at parsed
      · have := ih parsed
        omega
      · contradiction
    · contradiction

theorem parseDigits_narrow {bound bound' acc v : Nat} {s : List Char} (fits : acc < bound')
    (parsed : parseDigits bound acc s = some v) :
    parseDigits bound' acc s = if v < bound' then some v else none := by
  induction s generalizing acc with
  | nil =>
    obtain rfl := Option.some.inj parsed
    rw [if_pos fits]
    rfl
  | cons c rest ih =>
    simp only [parseDigits] at parsed ⊢
    split at parsed
    · next digit =>
      split at parsed
      · rw [if_pos digit]
        by_cases small : acc * 10 + (c.toNat - '0'.toNat) < bound'
        · rw [if_pos small]
          exact ih small parsed
        · have := parseDigits_ge parsed
          rw [if_neg small,if_neg (by omega)]
      · contradiction
    · contradiction

theorem parseDigits_digits {bound acc v : Nat} {s : List Char} (parsed : parseDigits bound acc s = some v) :
    ∀ c ∈ s, c.isDigit := by
  induction s generalizing acc with
  | nil => simp
  | cons c rest ih =>
    simp only [parseDigits] at parsed
    split at parsed
    · next digit =>
      split at parsed
      · simpa [digit] using ih parsed
      · contradiction
    · contradiction

theorem parse_narrow {bound bound' v : Nat} {s : List Char} (positive : 0 < bound') (parsed : parse bound s = some v) :
    parse bound' s = if v < bound' then some v else none := by
  unfold parse at parsed ⊢
  split at parsed
  · contradiction
  · next nonempty =>
    rw [if_neg nonempty]
    exact parseDigits_narrow positive parsed

theorem mem_digitsOf {c : Char} {s : List Char} (member : c ∈ s) (other : c ≠ '+') : c ∈ digitsOf s := by
  unfold digitsOf
  split
  · cases s with
    | nil => contradiction
    | cons d rest => simp_all
  · exact member

theorem parse_newline {bound : Nat} {s : List Char} (broken : '\n' ∈ s) : parse bound s = none := by
  unfold parse
  split
  · rfl
  · cases parsed : parseDigits bound 0 (digitsOf s) with
    | none => rfl
    | some v => exact absurd (parseDigits_digits parsed _ (mem_digitsOf broken (by decide))) (by decide)

/-- The value as it is parsed: with the line of the index still in front, it is the index, if the
line of the value is blank, and no number otherwise. -/
theorem parse_appended {text line : List Char} {v : Nat} (parsed : parse (2 ^ 64) (trim isWhitespace text) = some v)
    (ends : line = [] ∨ ∃ front, text = front ++ ['\n']) :
    parse (2 ^ 8) (trim isWhitespace (text ++ line)) =
      if Blank isWhitespace line ∧ v < 2 ^ 8 then some v else none := by
  by_cases blank : Blank isWhitespace line
  · rw [trim_append_blank blank,parse_narrow (by decide) parsed]
    simp [blank]
  · rw [if_neg fun both => blank both.1]
    rcases ends with rfl | ⟨front,rfl⟩
    · exact absurd (by simp [Blank]) blank
    · apply parse_newline
      apply mem_trim_append ?_ blank
      intro trimmed
      rw [trimmed] at parsed
      contradiction

def lines : Stdin → List Stdin
  | [] => []
  | c :: rest =>
    if c = some '\n' then [c] :: lines rest
    else
      match lines rest with
      | [] => [[c]]
      | line :: more => (c :: line) :: more

def indexOn (line : Stdin) : Option Nat := (decode line).bind fun text => parse (2 ^ 64) (trim isWhitespace text)

def blankLine (line : Stdin) : Bool :=
  match decode line with
  | some text => Blank isWhitespace text
  | none => false

/-- What a session stores: every index below 256 whose next line is blank or not there. A line that
is no index is passed over alone, an index together with its next line. -/
def stored : List Stdin → List UInt8
  | [] => []
  | line :: more =>
    match indexOn line with
    | none => stored more
    | some v =>
      match more with
      | [] => if v < 2 ^ 8 then [.ofNat v] else []
      | next :: more => if blankLine next ∧ v < 2 ^ 8 then .ofNat v :: stored more else stored more

theorem lines_split {input : Stdin} (nonempty : input ≠ []) :
    lines input = (splitLine input).1 :: lines (splitLine input).2 := by
  induction input with
  | nil => contradiction
  | cons c rest ih =>
    by_cases newline : c = some '\n'
    · simp [lines,splitLine,newline]
    · simp only [lines,splitLine,if_neg newline]
      cases rest with
      | nil => rfl
      | cons d rest => rw [ih (by simp)]

theorem splitLine_ends (input : Stdin) :
    (splitLine input).2 = [] ∨ ∃ front, (splitLine input).1 = front ++ [some '\n'] := by
  induction input with
  | nil => exact .inl rfl
  | cons c rest ih =>
    by_cases newline : c = some '\n'
    · exact .inr ⟨[],by simp [splitLine,newline]⟩
    · simp only [splitLine,if_neg newline]
      exact ih.imp_right fun ⟨front,ends⟩ => ⟨c :: front,by rw [ends]; rfl⟩

theorem decode_concat {front : Stdin} {c : Char} {text : List Char} (decoded : decode (front ++ [some c]) = some text) :
    ∃ before, text = before ++ [c] := by
  induction front generalizing text with
  | nil => exact ⟨[],(Option.some.inj decoded).symm⟩
  | cons d front ih =>
    cases d with
    | none => contradiction
    | some d =>
      obtain ⟨rest,inner,rfl⟩ := Option.map_eq_some_iff.mp decoded
      obtain ⟨before,rfl⟩ := ih inner
      exact ⟨d :: before,rfl⟩

theorem stored_skip {line : Stdin} (skipped : indexOn line = none) (more : List Stdin) :
    stored (line :: more) = stored more := by
  rw [stored,skipped]

theorem stored_last {line : Stdin} {v : Nat} (index : indexOn line = some v) :
    stored [line] = if v < 2 ^ 8 then [.ofNat v] else [] := by
  rw [stored,index]

theorem stored_pair {line next : Stdin} {v : Nat} (index : indexOn line = some v) (more : List Stdin) :
    stored (line :: next :: more) = (if blankLine next ∧ v < 2 ^ 8 then [.ofNat v] else []) ++ stored more := by
  rw [stored,index]
  simp only
  split <;> rfl

/-- A byte is stored at the index that it is. -/
def atItself (v : UInt8) : UInt64 × UInt8 := (v.toUInt64, v)

theorem setAll_append (tree : MerkleTree) (first second : List (UInt64 × UInt8)) :
    tree.setAll (first ++ second) = tree.setAll first >>= fun middle => middle.setAll second := by
  simp [MerkleTree.setAll,List.foldlM_append]

theorem set_atItself {tree : MerkleTree} (room : 2 ^ 8 ≤ tree.data.bytes.length) {v : Nat} (small : v < 2 ^ 8) :
    ∃ tree', tree.setAll [atItself (.ofNat v)] = .ok tree' ∧ tree.set (.ofNat v) (.ofNat v) = .ok tree' := by
  have byte : (UInt8.ofNat v).toUInt64 = UInt64.ofNat v := by
    apply UInt64.toNat_inj.mp
    rw [UInt8.toNat_toUInt64,UInt8.toNat_ofNat_of_lt' small,UInt64.toNat_ofNat_of_lt' (small.trans (by decide))]
  have inside : (UInt64.ofNat v).toNat < tree.data.bytes.length := by
    rw [UInt64.toNat_ofNat_of_lt' (small.trans (by decide))]
    omega
  have done : tree.set (.ofNat v) (.ofNat v) =
      .ok ⟨{ tree.data with bytes := tree.data.bytes.set (UInt64.ofNat v).toNat (.ofNat v) }, tree.rootNode⟩ := by
    rw [MerkleTree.set,BinaryBlob.set,if_pos inside]
    rfl
  refine ⟨_,?_,done⟩
  rw [MerkleTree.setAll,List.foldlM_cons,atItself,byte,done]
  rfl

def unreadable : Panic := .explicit "Could not read user input."

theorem readLine_eq (text : List Char) (input : Stdin) :
    readLine text input = ((decode (splitLine input).1).map fun line => (text ++ line, (splitLine input).2)).elim
      (.error unreadable) .ok := by
  unfold readLine
  cases decode (splitLine input).1 <;> rfl

theorem enterVal_eq {tree : MerkleTree} (room : 2 ^ 8 ≤ tree.data.bytes.length) {v : Nat} {text line : List Char}
    {input : Stdin} (parsed : parse (2 ^ 64) (trim isWhitespace text) = some v)
    (decoded : decode (splitLine input).1 = some line) (ends : line = [] ∨ ∃ front, text = front ++ ['\n']) :
    ∃ tree', tree.setAll ((if Blank isWhitespace line ∧ v < 2 ^ 8 then [UInt8.ofNat v] else []).map atItself) = .ok tree' ∧
      enterVal tree v text input = .ok ⟨tree', (splitLine input).2⟩ := by
  rw [enterVal,readLine_eq,decoded]
  simp only [Option.map_some,Option.elim_some,bind,Except.bind]
  rw [parse_appended parsed ends]
  split
  · next kept =>
    obtain ⟨tree',once,set⟩ := set_atItself room kept.2
    refine ⟨tree',by simpa using once,?_⟩
    simp only [set]
    rfl
  · exact ⟨tree,rfl,rfl⟩

/-- The lines of an input up to the first one that does not decode, with which no call is left open. -/
structure Broken (input : Stdin) (before : List Stdin) (bad : Stdin) : Prop where
  front : before ++ [bad] <+: lines input
  decodes : ∀ line ∈ before, decode line ≠ none
  undecoded : decode bad = none

/-- One iteration that finds something to read: it panics at the first line that does not decode, with nothing
stored, or reads a line or two. -/
theorem iteration_cases (s : Session) (nonempty : s.input ≠ []) (room : 2 ^ 8 ≤ s.tree.data.bytes.length) :
    (∃ before bad, Broken s.input before bad ∧ stored (before ++ [bad]) = [] ∧ iteration s = .error unreadable) ∨
    ∃ read kept more tree, lines s.input = read ++ lines more ∧ read ≠ [] ∧ (∀ line ∈ read, decode line ≠ none) ∧
      (∀ rest, (lines more = [] → rest = []) → stored (read ++ rest) = kept ++ stored rest) ∧
      s.tree.setAll (kept.map atItself) = .ok tree ∧ iteration s = .ok ⟨tree, more⟩ := by
  have ends := splitLine_ends s.input
  have first := lines_split nonempty
  rw [iteration,readLine_eq]
  generalize (splitLine s.input).1 = line at ends first ⊢
  generalize (splitLine s.input).2 = input at ends first ⊢
  cases decoded : decode line with
  | none =>
    have skipped : indexOn line = none := by simp [indexOn,decoded]
    refine .inl ⟨[],line,⟨⟨lines input,by rw [first]; rfl⟩,by simp,decoded⟩,?_,rfl⟩
    rw [List.nil_append,stored_skip skipped,stored]
  | some text =>
    have index : indexOn line = parse (2 ^ 64) (trim isWhitespace text) := by simp [indexOn,decoded]
    simp only [Option.map_some,Option.elim_some,bind,Except.bind,List.nil_append]
    cases parsed : parse (2 ^ 64) (trim isWhitespace text) with
    | none =>
      rw [parsed] at index
      exact .inr ⟨[line],[],input,s.tree,first,by simp,by simp [decoded],fun rest _ => stored_skip index rest,rfl,rfl⟩
    | some v =>
      rw [parsed] at index
      by_cases drained : input = []
      · subst drained
        obtain ⟨tree,set,entered⟩ := @enterVal_eq s.tree room v text [] [] parsed rfl (.inl rfl)
        refine .inr ⟨[line],_,[],tree,first,by simp,by simp [decoded],fun rest ended => ?_,set,entered⟩
        rw [ended rfl,List.append_nil,stored_last index]
        simp [Blank,stored]
      · obtain ⟨front,broken⟩ := ends.resolve_left drained
        obtain ⟨before,ends⟩ := decode_concat (broken ▸ decoded)
        rw [lines_split drained] at first
        cases decoded' : decode (splitLine input).1 with
        | none =>
          refine .inl ⟨[line],(splitLine input).1,⟨⟨_,by rw [first]; rfl⟩,by simp [decoded],decoded'⟩,?_,?_⟩
          · rw [List.singleton_append,stored_pair index]
            simp [blankLine,decoded',stored]
          · show enterVal s.tree v text input = _
            rw [enterVal,readLine_eq,decoded']
            rfl
        | some line' =>
          obtain ⟨tree,set,entered⟩ := @enterVal_eq s.tree room v text line' input parsed decoded' (.inr ⟨before,ends⟩)
          refine .inr ⟨[line,(splitLine input).1],_,(splitLine input).2,tree,first,by simp,by simp [decoded,decoded'],
            fun rest _ => ?_,set,entered⟩
          rw [List.cons_append,List.singleton_append,stored_pair index]
          simp [blankLine,decoded']

theorem iterations_over (tree : MerkleTree) (n : Nat) : iterations n ⟨tree, []⟩ = .ok ⟨tree, []⟩ := by
  induction n with
  | zero => rfl
  | succ n ih => exact ih

/-- The loop has been through its input up to the first line that does not decode, has made the calls up to there,
and panics in its next iteration. -/
def Panics (n : Nat) (s : Session) (before : List Stdin) (bad : Stdin) : Prop :=
  Broken s.input before bad ∧ iterations n s = .error unreadable ∧
    ∃ m < n, ∃ tree more, iterations m s = .ok ⟨tree, more⟩ ∧ iteration ⟨tree, more⟩ = .error unreadable ∧
      s.tree.setAll ((stored (before ++ [bad])).map atItself) = .ok tree ∧ tree.rootNode = s.tree.rootNode

theorem iterations_succ {s s' : Session} (once : iteration s = .ok s') (n : Nat) : iterations (n + 1) s = iterations n s' := by
  rw [iterations,once]
  rfl

theorem Panics.earlier {n : Nat} {s : Session} {tree : MerkleTree} {middle : Stdin} {read before : List Stdin} {bad : Stdin}
    {kept : List UInt8} (split : lines s.input = read ++ lines middle) (decodes : ∀ line ∈ read, decode line ≠ none)
    (calls : ∀ rest, (lines middle = [] → rest = []) → stored (read ++ rest) = kept ++ stored rest)
    (set : s.tree.setAll (kept.map atItself) = .ok tree) (once : iteration s = .ok ⟨tree, middle⟩)
    (later : Panics n ⟨tree, middle⟩ before bad) : Panics (n + 1) s (read ++ before) bad := by
  obtain ⟨⟨front,earlier,undecoded⟩,failed,m,fewer,tree',more,reached,panics,set',_⟩ := later
  have unread : lines middle ≠ [] := by
    rintro nothing
    simp [nothing] at front
  have made : s.tree.setAll ((stored (read ++ before ++ [bad])).map atItself) = .ok tree' := by
    rw [List.append_assoc,calls _ fun nothing => absurd nothing unread,List.map_append,setAll_append,set]
    exact set'
  refine ⟨⟨?_,List.forall_mem_append.mpr ⟨decodes,earlier⟩,undecoded⟩,(iterations_succ once n).trans failed,
    m + 1,Nat.succ_lt_succ fewer,tree',more,(iterations_succ once m).trans reached,panics,made,MerkleTree.setAll_node made⟩
  rw [split,List.append_assoc]
  exact (List.prefix_append_right_inj read).mpr front

theorem iterations_lines (n : Nat) (s : Session) (room : 2 ^ 8 ≤ s.tree.data.bytes.length) :
    (∃ before bad, Panics n s before bad) ∨
    ∃ read kept more tree, lines s.input = read ++ lines more ∧ (∀ line ∈ read, decode line ≠ none) ∧
      stored (lines s.input) = kept ++ stored (lines more) ∧ ((lines s.input).length ≤ n → more = []) ∧
      s.tree.setAll (kept.map atItself) = .ok tree ∧ iterations n s = .ok ⟨tree, more⟩ := by
  induction n generalizing s with
  | zero =>
    refine .inr ⟨[],[],s.input,s.tree,rfl,by simp,rfl,fun few => ?_,rfl,rfl⟩
    by_contra nonempty
    rw [lines_split nonempty,List.length_cons] at few
    omega
  | succ n ih =>
    by_cases drained : s.input = []
    · obtain ⟨tree,input⟩ := s
      obtain rfl : input = [] := drained
      exact .inr ⟨[],[],[],tree,rfl,by simp,rfl,fun _ => rfl,rfl,iterations_over tree (n + 1)⟩
    · rcases iteration_cases s drained room with ⟨before,bad,broken,nothing,failed⟩ |
        ⟨read,kept,middle,tree,split,several,decodes,calls,set,once⟩
      · refine .inl ⟨before,bad,broken,by rw [iterations,failed]; rfl,0,Nat.succ_pos n,s.tree,s.input,rfl,failed,?_,rfl⟩
        rw [nothing]
        rfl
      · rcases ih ⟨tree,middle⟩ (by rw [MerkleTree.setAll_length set]; exact room) with
          ⟨before,bad,later⟩ | ⟨read',kept',more,tree',split',decodes',rest,ends,set',left⟩
        · exact .inl ⟨read ++ before,bad,later.earlier split decodes calls set once⟩
        · refine .inr ⟨read ++ read',kept ++ kept',more,tree',?_,List.forall_mem_append.mpr ⟨decodes,decodes'⟩,?_,?_,?_,
            (iterations_succ once n).trans left⟩
          · rw [split,split',List.append_assoc]
          · rw [split,calls _ id,rest,List.append_assoc]
          · intro enough
            rw [split,List.length_append] at enough
            have := List.length_pos_iff.mpr several
            exact ends (by simp only; omega)
          · rw [List.map_append,setAll_append,set]
            exact set'

theorem lastSet_atItself {idx : UInt64} {kept : List UInt8} {val : UInt8}
    (last : lastSet idx (kept.map atItself) = some val) : idx = val.toUInt64 ∧ val ∈ kept := by
  obtain ⟨call,found,rfl⟩ := Option.map_eq_some_iff.mp last
  have own := List.find?_some found
  obtain ⟨v,member,rfl⟩ := List.mem_map.mp (List.mem_reverse.mp (List.mem_of_find?_eq_some found))
  exact ⟨(of_decide_eq_true own).symm,member⟩

/-- Whatever is entered and however long the loop runs: it never stores anything but a byte at the
index that the byte itself is, for exactly those indices whose next line is blank; no other
value can be entered. The nodes stay as they are. The loop does not end with its input, and it panics only at
the first line that does not decode, with the calls up to that line made. -/
theorem session_stores_indices (n : Nat) (s : Session) (room : 2 ^ 8 ≤ s.tree.data.bytes.length) :
    (∃ before bad, Panics n s before bad) ∨
    ∃ read kept more tree, iterations n s = .ok ⟨tree, more⟩ ∧ lines s.input = read ++ lines more ∧
      (∀ line ∈ read, decode line ≠ none) ∧ stored (lines s.input) = kept ++ stored (lines more) ∧
      ((lines s.input).length ≤ n → more = []) ∧ s.tree.setAll (kept.map atItself) = .ok tree ∧
      tree.rootNode = s.tree.rootNode ∧
      ∀ idx, tree.get idx = s.tree.get idx ∨ ∃ val : UInt8, idx = val.toUInt64 ∧ val ∈ kept ∧ tree.get idx = .ok val := by
  rcases iterations_lines n s room with failed | ⟨read,kept,more,tree,lined,decodes,split,ends,set,left⟩
  · exact .inl failed
  · refine .inr ⟨read,kept,more,tree,left,lined,decodes,split,ends,set,MerkleTree.setAll_node set,fun idx => ?_⟩
    have stored := MerkleTree.setAll_get set idx
    cases last : lastSet idx (kept.map atItself) with
    | none =>
      rw [last] at stored
      exact .inl stored
    | some val =>
      rw [last] at stored
      obtain ⟨own,member⟩ := lastSet_atItself last
      exact .inr ⟨val,own,member,stored⟩

/-- A seven with a blank line behind it, and a nine that is to become a five. -/
def sevenAndNine : Stdin := [some '7', some '\n', some '\n', some '9', some '\n', some '5', some '\n']

theorem session_stores_seven : ∃ tree, iterations 4 ⟨⟨⟨List.replicate 256 0, 256⟩, .leaf [] 0 256⟩, sevenAndNine⟩ = .ok ⟨tree, []⟩ ∧
    MerkleTree.setAll ⟨⟨List.replicate 256 0, 256⟩, .leaf [] 0 256⟩ [(7, 7)] = .ok tree := by
  rcases session_stores_indices 4 ⟨⟨⟨List.replicate 256 0,256⟩,.leaf [] 0 256⟩,sevenAndNine⟩
    (by rw [List.length_replicate]; decide) with ⟨before,bad,⟨front,_,undecoded⟩,_⟩ | ⟨_,kept,more,tree,left,_,_,split,ends,set,_⟩
  · have all : ∀ line ∈ lines sevenAndNine, decode line ≠ none := by decide
    exact absurd undecoded (all bad (front.subset (by simp)))
  · obtain rfl : more = [] := ends (by decide)
    obtain rfl : [7] = kept := split.trans (List.append_nil kept)
    exact ⟨tree,left,set⟩

end Ndp.Merkle
