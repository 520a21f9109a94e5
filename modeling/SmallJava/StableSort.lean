import SmallJava.Search

/-!
# Stable sorting

`stableSort less` orders a list by a strict comparison and keeps the order of elements that compare
equal. The list is cut into blocks of twenty, each block is sorted by insertion, and neighbouring blocks
are merged until one is left.

A merge is symmetric: a middle position is fixed, and a binary search finds how much of each side belongs
before it, so that both halves can be merged on their own. The comparison need not be transitive; then
the result is still a permutation, and which one is settled by the comparisons made here.
-/

namespace SmallJava

namespace StableSort

variable {α : Type}

/-- Places `x` into a sorted list that is given in descending order, before the first element that `x` is not
less than. -/
def insertDescending (less : α → α → Bool) (x : α) : List α → List α
  | [] => [x]
  | y :: ys => if less x y then y :: insertDescending less x ys else x :: y :: ys

/-- Insertion sort: the elements are taken in order, and each moves back past those that it is less than. -/
def insertionSort (less : α → α → Bool) (xs : List α) : List α :=
  (xs.foldl (fun sorted x => insertDescending less x sorted) []).reverse

/-- How many elements of `xs` go before the middle when `xs ++ ys` is merged and cut at `mid`: the least
count `k` in `[lo, hi)` such that the `k`-th element of `xs` is more than its counterpart in `ys`. -/
def split (less : α → α → Bool) (xs ys : List α) (mid lo hi : Nat) : Nat :=
  bisect (fun k => match ys[mid - 1 - k]?, xs[k]? with
    | some y, some x => less y x
    | _, _ => false) lo hi

/-- Merges two sorted lists; of equal elements those of the first list come first. -/
def symMerge (less : α → α → Bool) : List α → List α → List α
  | [], ys => ys
  | xs, [] => xs
  | [x], ys =>
    let i := bisect (fun k => match ys[k]? with
      | some y => !less y x
      | none => true) 0 ys.length
    ys.take i ++ x :: ys.drop i
  | xs, [y] =>
    let i := bisect (fun k => match xs[k]? with
      | some x => less y x
      | none => true) 0 xs.length
    xs.take i ++ y :: xs.drop i
  | x :: x' :: xs, y :: y' :: ys =>
    let l := x :: x' :: xs
    let r := y :: y' :: ys
    let mid := (l.length + r.length) / 2
    let i := split less l r mid (mid - r.length) (min mid l.length)
    symMerge less (l.take i) (r.take (mid - i)) ++ symMerge less (l.drop i) (r.drop (mid - i))
termination_by xs ys => xs.length + ys.length
decreasing_by
  all_goals simp only [List.length_take, List.length_drop, List.length_cons]
  all_goals omega

/-- The size of the blocks that are sorted by insertion. -/
def blockSize : Nat := 20

/-- Puts `x` at the front of the first block. -/
def consFirst (x : α) : List (List α) → List (List α)
  | [] => [[x]]
  | b :: bs => (x :: b) :: bs

/-- Cuts a list into blocks of `blockSize`, the last of which may be shorter; the first block takes `room`
elements. -/
def blocks : Nat → List α → List (List α)
  | _, [] => [[]]
  | 0, x :: xs => [] :: consFirst x (blocks (blockSize - 1) xs)
  | room + 1, x :: xs => consFirst x (blocks room xs)

/-- Merges the first block with the second, the third with the fourth, and so on. -/
def mergePairs (less : α → α → Bool) : List (List α) → List (List α)
  | a :: b :: bs => symMerge less a b :: mergePairs less bs
  | bs => bs

/-- Merges neighbours until one block is left. A round halves the number of blocks, so that as many rounds as
there are blocks suffice. -/
def mergeAll (less : α → α → Bool) : Nat → List (List α) → List α
  | 0, bs => bs.flatten
  | _ + 1, [] => []
  | _ + 1, [b] => b
  | rounds + 1, bs => mergeAll less rounds (mergePairs less bs)

end StableSort

/-- Sorts by a strict comparison, keeping the order of elements neither of which is less than the other. -/
def stableSort {α : Type} (less : α → α → Bool) (xs : List α) : List α :=
  let bs := (StableSort.blocks StableSort.blockSize xs).map (StableSort.insertionSort less)
  StableSort.mergeAll less bs.length bs

end SmallJava
