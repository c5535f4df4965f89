import Mathlib.Data.List.Basic
import Mathlib.Tactic.Common

/-! The tree builder: numbers are read in preorder, with `-1` where there is no child, and printed
again in preorder. A subtree is as long as its numbers say, so what ends a tree is not a
delimiter but the count of absent children. -/
namespace Ndp.CreateTree

/-- A `node *`. -/
inductive Node where
  | null
  | node (data : Int32) (left right : Node)
  deriving DecidableEq, Repr

/-- How `create` comes back: with a tree, what it has not read and all that is on the terminal, or
with an `x` that `scanf` has left unassigned. -/
inductive Created where
  | tree (t : Node) (rest : List Int32) (out : List String)
  | ranDry (out : List String)
  deriving DecidableEq, Repr

def askData : String := "Enter data (-1 for no datat):"

def askLeft (x : Int32) : String := "Enter left child of " ++ toString x ++ ": \n"

def askRight (x : Int32) : String := "Enter right child of " ++ toString x ++ ": \n"

/-- Nothing while the recursion goes deeper than `depth`. -/
def create : Nat → List Int32 → List String → Option Created
  | 0, _, _ => none
  | _ + 1, [], out => some (.ranDry (out ++ [askData]))
  | depth + 1, x :: rest, out =>
    if x = -1 then some (.tree .null rest (out ++ [askData]))
    else
      match create depth rest (out ++ [askData, askLeft x]) with
      | some (.tree left rest out) =>
        match create depth rest (out ++ [askRight x]) with
        | some (.tree right rest out) => some (.tree (.node x left right) rest out)
        | other => other
      | other => other

def preorder : Node → List String
  | .null => []
  | .node data left right => ["\n" ++ toString data] ++ preorder left ++ preorder right

def main (depth : Nat) (input : List Int32) : Option Created :=
  match create depth input [] with
  | some (.tree root rest out) =>
    some (.tree root rest (out ++ ["\nThe preorder traversal of tree is: \n"] ++ preorder root))
  | other => other

namespace Node

def numbers : Node → List Int32
  | null => [-1]
  | node data left right => data :: (left.numbers ++ right.numbers)

def prompts : Node → List String
  | null => [askData]
  | node data left right => [askData, askLeft data] ++ left.prompts ++ [askRight data] ++ right.prompts

def Proper : Node → Prop
  | null => True
  | node data left right => data ≠ -1 ∧ left.Proper ∧ right.Proper

end Node

/-- By how many the absent children outnumber the nodes. -/
def excess : List Int32 → Int
  | [] => 0
  | x :: rest => (if x = -1 then 1 else -1) + excess rest

theorem excess_append (xs ys : List Int32) : excess (xs ++ ys) = excess xs + excess ys := by
  induction xs with
  | nil => simp [excess]
  | cons x xs ih => simp only [List.cons_append,excess,ih]; omega

theorem excess_numbers {t : Node} (proper : t.Proper) :
    excess t.numbers = 1 ∧ ∀ k, k < t.numbers.length → excess (t.numbers.take k) ≤ 0 := by
  induction t with
  | null =>
    refine ⟨by simp [Node.numbers,excess],fun k below => ?_⟩
    obtain rfl : k = 0 := by simpa [Node.numbers] using below
    simp [excess]
  | node data left right hl hr =>
    obtain ⟨value,properl,properr⟩ := proper
    obtain ⟨wholel,partl⟩ := hl properl
    obtain ⟨wholer,partr⟩ := hr properr
    refine ⟨?_,fun k below => ?_⟩
    · simp only [Node.numbers,excess,excess_append,if_neg value]
      omega
    · cases k with
      | zero => simp [excess]
      | succ k =>
        simp only [Node.numbers,List.length_cons,List.length_append] at below
        simp only [Node.numbers,List.take_succ_cons,excess,if_neg value,List.take_append,excess_append]
        by_cases inLeft : k < left.numbers.length
        · have := partl k inLeft
          have before : k - left.numbers.length = 0 := by omega
          rw [before]
          simp only [List.take_zero,excess]
          omega
        · have := partr (k - left.numbers.length) (by omega)
          rw [List.take_of_length_le (by omega : left.numbers.length ≤ k)]
          omega

theorem numbers_pos (t : Node) : 0 < t.numbers.length := by
  cases t <;> simp [Node.numbers]

theorem excess_part {t : Node} (proper : t.Proper) (k : Nat) : excess (t.numbers.take k) ≤ 1 := by
  obtain ⟨whole,part⟩ := excess_numbers proper
  by_cases below : k < t.numbers.length
  · have := part k below
    omega
  · rw [List.take_of_length_le (by omega)]
    omega

theorem create_numbers {t : Node} (proper : t.Proper) (depth : Nat) (deep : t.numbers.length ≤ depth) (rest : List Int32)
    (out : List String) : create depth (t.numbers ++ rest) out = some (.tree t rest (out ++ t.prompts)) := by
  induction t generalizing depth rest out with
  | null =>
    obtain ⟨depth,rfl⟩ : ∃ d, depth = d + 1 := ⟨depth - 1,by simp [Node.numbers] at deep; omega⟩
    simp [create,Node.numbers,Node.prompts]
  | node data left right hl hr =>
    obtain ⟨value,properl,properr⟩ := proper
    simp only [Node.numbers,List.length_cons,List.length_append] at deep
    obtain ⟨depth,rfl⟩ : ∃ d, depth = d + 1 := ⟨depth - 1,by omega⟩
    simp only [Node.numbers,List.cons_append,List.append_assoc,create,if_neg value]
    rw [hl properl depth (by omega)]
    simp only
    rw [hr properr depth (by omega)]
    simp [Node.prompts]

/-- The numbers read make a tree, or they are used up before one is complete. -/
theorem create_cases (depth : Nat) (input : List Int32) (out : List String) (deep : input.length < depth) :
    (∃ t rest, create depth input out = some (.tree t rest (out ++ t.prompts)) ∧ t.Proper ∧ input = t.numbers ++ rest) ∨
    ((∃ out', create depth input out = some (.ranDry out')) ∧ ∀ k, excess (input.take k) ≤ 0) := by
  induction depth generalizing input out with
  | zero => omega
  | succ depth ih =>
    cases input with
    | nil => exact .inr ⟨⟨_,rfl⟩,by simp [excess]⟩
    | cons x input =>
      rw [List.length_cons] at deep
      by_cases absent : x = -1
      · subst absent
        exact .inl ⟨.null,input,by simp [create,Node.prompts],trivial,rfl⟩
      · have front (k : Nat) : excess ((x :: input).take (k + 1)) = -1 + excess (input.take k) := by
          simp [excess,absent]
        rcases ih input (out ++ [askData,askLeft x]) (by omega) with
          ⟨left,rest,made,properl,rfl⟩ | ⟨⟨out',dry⟩,short⟩
        · rw [List.length_append] at deep
          have := numbers_pos left
          rcases ih rest (out ++ [askData,askLeft x] ++ left.prompts ++ [askRight x]) (by omega) with
            ⟨right,rest,made',properr,rfl⟩ | ⟨⟨out',dry⟩,short⟩
          · refine .inl ⟨.node x left right,rest,?_,⟨absent,properl,properr⟩,by simp [Node.numbers]⟩
            simp only [create,if_neg absent,made,made']
            simp [Node.prompts]
          · refine .inr ⟨⟨out',by simp only [create,if_neg absent,made,dry]⟩,fun k => ?_⟩
            cases k with
            | zero => simp [excess]
            | succ k =>
              have behind := short (k - left.numbers.length)
              have part := excess_part properl k
              rw [front,List.take_append,excess_append]
              omega
        · refine .inr ⟨⟨out',by simp [create,absent,dry]⟩,fun k => ?_⟩
          cases k with
          | zero => simp [excess]
          | succ k =>
            have := short k
            rw [front]
            omega

theorem preorder_numbers {t : Node} (proper : t.Proper) :
    preorder t = (t.numbers.filter (· ≠ -1)).map fun x => "\n" ++ toString x := by
  induction t with
  | null => simp [preorder,Node.numbers]
  | node data left right hl hr =>
    obtain ⟨value,properl,properr⟩ := proper
    simp [preorder,Node.numbers,value,hl properl,hr properr]

/-- The program on any input. It ends if and only if some first part of the input has more absent children
than nodes, and then it takes the shortest such part: that is one tree, whose numbers other
than `-1` are printed in the order in which they were entered. Every tree can be entered this way.
Otherwise the input is used up while a number is still asked for. -/
theorem main_prints_entered (input : List Int32) (depth : Nat) (deep : input.length < depth) :
    ((∃ t k, main depth input = some (.tree t (input.drop k) (t.prompts ++ ["\nThe preorder traversal of tree is: \n"] ++
          ((input.take k).filter (· ≠ -1)).map fun x => "\n" ++ toString x)) ∧
        input.take k = t.numbers ∧ excess (input.take k) = 1 ∧ ∀ j, j < k → excess (input.take j) ≤ 0) ∨
      ((∃ out, main depth input = some (.ranDry out)) ∧ ∀ k, excess (input.take k) ≤ 0)) ∧
    ∀ t rest, t.Proper → input = t.numbers ++ rest → ∃ out, main depth input = some (.tree t rest out) := by
  refine ⟨?_,?_⟩
  · rcases create_cases depth input [] deep with ⟨t,rest,made,proper,rfl⟩ | ⟨⟨out,dry⟩,short⟩
    · obtain ⟨whole,part⟩ := excess_numbers proper
      refine .inl ⟨t,t.numbers.length,?_,List.take_left,by rw [List.take_left,whole],fun j below => ?_⟩
      · rw [List.take_left,List.drop_left,← preorder_numbers proper]
        simp only [main,made,List.nil_append]
      · rw [List.take_append_of_le_length (Nat.le_of_lt below)]
        exact part j below
    · exact .inr ⟨⟨out,by simp only [main,dry]⟩,short⟩
  · rintro t rest proper rfl
    rw [List.length_append] at deep
    exact ⟨_,by simp only [main,create_numbers proper depth (by omega) rest []]; rfl⟩

/-- A tree of two nodes and one number more. -/
theorem main_prints_two : ∃ t out, main 7 [1, 2, -1, -1, -1, 5] = some (.tree t [5] out) ∧ t.numbers = [1, 2, -1, -1, -1] := by
  obtain ⟨out,made⟩ := (main_prints_entered [1,2,-1,-1,-1,5] 7 (by decide)).2
    (.node 1 (.node 2 .null .null) .null) [5] (by simp [Node.Proper]) rfl
  exact ⟨_,out,made,rfl⟩

end Ndp.CreateTree
