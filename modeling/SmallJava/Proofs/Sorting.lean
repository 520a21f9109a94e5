import SmallJava.Diagnostic

/-!
# Sorting loses nothing

Whatever the comparison, `stableSort` only changes the order of the elements of a list (`stableSort_perm`). So merging
lists of diagnostics keeps every diagnostic and adds none (`Diagnostics.merge_perm`). Nothing but the comparison decides
on the order: what is changed without an effect on it is sorted in the same way (`stableSort_map`).
-/

namespace SmallJava

namespace StableSort

variable {α : Type} (less : α → α → Bool)

/-- Inserting an item loses nothing. -/
theorem insertDescending_perm (x : α) (ys : List α) : (insertDescending less x ys).Perm (x :: ys) := by
  induction ys with
  | nil => exact .refl _
  | cons y ys ih =>
    unfold insertDescending
    split
    · exact (ih.cons y).trans (.swap x y ys)
    · exact .refl _

theorem foldl_insertDescending_perm (xs sorted : List α) :
    (xs.foldl (fun sorted x => insertDescending less x sorted) sorted).Perm (xs ++ sorted) := by
  induction xs generalizing sorted with
  | nil => exact .refl _
  | cons x xs ih =>
    have hx := (insertDescending_perm less x sorted).append_left xs
    exact ((ih _).trans hx).trans List.perm_middle

/-- Sorting a block loses nothing. -/
theorem insertionSort_perm (xs : List α) : (insertionSort less xs).Perm xs := by
  have h := foldl_insertDescending_perm less xs []
  rw [List.append_nil] at h
  exact (List.reverse_perm _).trans h

/-- Two lists that are cut and put together again crosswise are the two lists. -/
theorem take_drop_perm (xs ys : List α) (i j : Nat) :
    (xs.take i ++ ys.take j ++ (xs.drop i ++ ys.drop j)).Perm (xs ++ ys) := by
  have hswap : (ys.take j ++ (xs.drop i ++ ys.drop j)).Perm (xs.drop i ++ (ys.take j ++ ys.drop j)) := by
    rw [← List.append_assoc, ← List.append_assoc]
    exact List.perm_append_comm.append_right _
  rw [List.append_assoc]
  refine (hswap.append_left _).trans ?_
  rw [← List.append_assoc, List.take_append_drop, List.take_append_drop]

/-- Merging two lists loses nothing. -/
theorem symMerge_perm (xs ys : List α) : (symMerge less xs ys).Perm (xs ++ ys) := by
  fun_induction symMerge less xs ys with
  | case1 ys => exact .refl _
  | case2 xs => simp
  | case3 x ys _ i =>
    refine List.perm_middle.trans ?_
    rw [List.take_append_drop]
    exact .refl _
  | case4 xs y _ _ i =>
    refine List.perm_middle.trans ?_
    rw [List.take_append_drop]
    exact (List.perm_append_singleton y xs).symm
  | case5 x x' xs y y' ys l r mid i ihl ihr => exact (ihl.append ihr).trans (take_drop_perm l r i (mid - i))

theorem flatten_consFirst (x : α) (bs : List (List α)) : (consFirst x bs).flatten = x :: bs.flatten := by
  cases bs <;> rfl

/-- Blocks are parts of the list, in its order. -/
theorem flatten_blocks (room : Nat) (xs : List α) : (blocks room xs).flatten = xs := by
  induction xs generalizing room with
  | nil => cases room <;> rfl
  | cons x xs ih => cases room <;> simp [blocks, flatten_consFirst, ih]

theorem flatten_map_insertionSort_perm (bs : List (List α)) :
    (bs.map (insertionSort less)).flatten.Perm bs.flatten := by
  induction bs with
  | nil => exact .refl _
  | cons b bs ih => exact (insertionSort_perm less b).append ih

/-- Merging neighbours loses nothing. -/
theorem mergePairs_perm (bs : List (List α)) : (mergePairs less bs).flatten.Perm bs.flatten := by
  fun_induction mergePairs less bs with
  | case1 a b bs ih =>
    rw [List.flatten_cons, List.flatten_cons, List.flatten_cons, ← List.append_assoc]
    exact (symMerge_perm less a b).append ih
  | case2 bs => exact .refl _

/-- Merging all blocks loses nothing. -/
theorem mergeAll_perm (rounds : Nat) (bs : List (List α)) : (mergeAll less rounds bs).Perm bs.flatten := by
  fun_induction mergeAll less rounds bs with
  | case1 bs => exact .refl _
  | case2 => exact .refl _
  | case3 _ b => simp
  | case4 rounds bs _ _ ih => exact ih.trans (mergePairs_perm less bs)

/-! ## Elements that are changed -/

section Map

variable {less} {β : Type} {less' : β → β → Bool} {f : α → β} (h : ∀ x y, less' (f x) (f y) = less x y)

/-- The border that a search finds stays where it is. -/
theorem bisect_map (q : α → Bool) (q' : β → Bool) (hq : ∀ y, q' (f y) = q y) (ys : List α) :
    bisect (fun k => match (ys.map f)[k]? with | some y => q' y | none => true) 0 (ys.map f).length
      = bisect (fun k => match ys[k]? with | some y => q y | none => true) 0 ys.length := by
  rw [List.length_map]
  refine congrArg (bisect · 0 ys.length) (funext fun k => ?_)
  rw [List.getElem?_map]
  cases ys[k]? with
  | none => rfl
  | some y => exact hq y

include h

theorem insertDescending_map (x : α) (ys : List α) :
    insertDescending less' (f x) (ys.map f) = (insertDescending less x ys).map f := by
  induction ys with
  | nil => rfl
  | cons y ys ih =>
    simp only [List.map_cons, insertDescending, h, ih]
    split <;> rfl

theorem foldl_insertDescending_map (xs sorted : List α) :
    (xs.map f).foldl (fun sorted x => insertDescending less' x sorted) (sorted.map f)
      = (xs.foldl (fun sorted x => insertDescending less x sorted) sorted).map f := by
  induction xs generalizing sorted with
  | nil => rfl
  | cons x xs ih => rw [List.map_cons, List.foldl_cons, insertDescending_map h, ih, List.foldl_cons]

/-- Sorting a block looks at items only by comparing them. -/
theorem insertionSort_map (xs : List α) : insertionSort less' (xs.map f) = (insertionSort less xs).map f := by
  have hfold := foldl_insertDescending_map h xs []
  rw [List.map_nil] at hfold
  rw [insertionSort, hfold, insertionSort, List.map_reverse]

theorem split_map (xs ys : List α) (mid lo hi : Nat) :
    split less' (xs.map f) (ys.map f) mid lo hi = split less xs ys mid lo hi := by
  unfold split
  congr 1
  funext k
  simp only [List.getElem?_map]
  cases ys[mid - 1 - k]? with
  | none => rfl
  | some y =>
    cases xs[k]? with
    | none => rfl
    | some x => exact h y x

theorem symMerge_map (xs ys : List α) : symMerge less' (xs.map f) (ys.map f) = (symMerge less xs ys).map f := by
  fun_induction symMerge less xs ys with
  | case1 ys => simp [symMerge]
  | case2 xs hne =>
    cases xs with
    | nil => exact absurd rfl hne
    | cons x xs => simp [symMerge]
  | case3 x ys hys i =>
    have hborder := bisect_map (fun y => !less y x) (fun y => !less' y (f x)) (fun y => congrArg Bool.not (h y x)) ys
    have hmerge : symMerge less' [f x] (ys.map f) = (ys.map f).take i ++ f x :: (ys.map f).drop i := by
      rw [show i = _ from hborder.symm]
      exact symMerge.eq_3 _ _ _ (by simpa using hys)
    simpa using hmerge
  | case4 xs y hxs hxs' i =>
    have hborder := bisect_map (less y) (less' (f y)) (fun x => h y x) xs
    have hmerge : symMerge less' (xs.map f) [f y] = (xs.map f).take i ++ f y :: (xs.map f).drop i := by
      rw [show i = _ from hborder.symm]
      refine symMerge.eq_4 _ _ _ (by simpa using hxs) fun z hz => ?_
      obtain ⟨x, hx, -⟩ := List.map_eq_singleton_iff.1 hz
      exact hxs' x hx
    simpa using hmerge
  | case5 x x' xs y y' ys l r mid i ihl ihr =>
    have hsplit := split_map h l r mid (mid - r.length) (min mid l.length)
    have hmerge : symMerge less' (l.map f) (r.map f)
        = symMerge less' ((l.map f).take i) ((r.map f).take (mid - i))
          ++ symMerge less' ((l.map f).drop i) ((r.map f).drop (mid - i)) := by
      rw [show i = _ from hsplit.symm]
      simp only [mid, l, r, List.map_cons, symMerge, List.length_cons, List.length_map]
    rw [List.map_append, ← ihl, ← ihr, List.map_take, List.map_take, List.map_drop, List.map_drop]
    exact hmerge

omit h in
theorem consFirst_map (x : α) (bs : List (List α)) :
    consFirst (f x) (bs.map (List.map f)) = (consFirst x bs).map (List.map f) := by
  cases bs <;> rfl

omit h in
theorem blocks_map (room : Nat) (xs : List α) : blocks room (xs.map f) = (blocks room xs).map (List.map f) := by
  induction xs generalizing room with
  | nil => cases room <;> rfl
  | cons x xs ih => cases room <;> simp [blocks, ih, consFirst_map]

theorem mergePairs_map (bs : List (List α)) :
    mergePairs less' (bs.map (List.map f)) = (mergePairs less bs).map (List.map f) := by
  fun_induction mergePairs less bs with
  | case1 a b bs ih => rw [List.map_cons, List.map_cons, mergePairs, symMerge_map h, ih, List.map_cons]
  | case2 bs hne =>
    match bs, hne with
    | [], _ => rfl
    | [a], _ => rfl
    | a :: b :: bs, hne => exact absurd rfl (hne a b bs)

theorem mergeAll_map (rounds : Nat) (bs : List (List α)) :
    mergeAll less' rounds (bs.map (List.map f)) = (mergeAll less rounds bs).map f := by
  fun_induction mergeAll less rounds bs with
  | case1 bs => rw [mergeAll, List.map_flatten]
  | case2 => rfl
  | case3 _ b => rfl
  | case4 rounds bs hnil hone ih =>
    rw [← ih, ← mergePairs_map h]
    match bs, hnil, hone with
    | [], hnil, _ => exact absurd rfl hnil
    | [b], _, hone => exact absurd rfl (hone b)
    | a :: b :: bs, _, _ => rfl

end Map

end StableSort

/-- **Sorting loses nothing and adds nothing.** -/
theorem stableSort_perm {α : Type} (less : α → α → Bool) (xs : List α) : (stableSort less xs).Perm xs := by
  have h := StableSort.flatten_map_insertionSort_perm less (StableSort.blocks StableSort.blockSize xs)
  rw [StableSort.flatten_blocks] at h
  exact (StableSort.mergeAll_perm less _ _).trans h

/-- **What is changed without an effect on the comparison is sorted in the same way.** -/
theorem stableSort_map {α β : Type} {less : α → α → Bool} {less' : β → β → Bool} {f : α → β}
    (h : ∀ x y, less' (f x) (f y) = less x y) (xs : List α) :
    stableSort less' (xs.map f) = (stableSort less xs).map f := by
  have hblocks : ((StableSort.blocks StableSort.blockSize xs).map (List.map f)).map (StableSort.insertionSort less')
      = ((StableSort.blocks StableSort.blockSize xs).map (StableSort.insertionSort less)).map (List.map f) := by
    rw [List.map_map, List.map_map]
    exact List.map_congr_left fun b _ => StableSort.insertionSort_map h b
  simp only [stableSort, StableSort.blocks_map, hblocks, StableSort.mergeAll_map h, List.length_map]

namespace Diagnostics

/-- **Merging diagnostics loses none of them.** -/
theorem merge_perm (lists : List Diagnostics) : (merge lists).Perm lists.flatten := stableSort_perm _ _

@[simp] theorem mem_merge {lists : List Diagnostics} {d : Diagnostic} : d ∈ merge lists ↔ d ∈ lists.flatten :=
  (merge_perm lists).mem_iff

@[simp] theorem merge_eq_nil {lists : List Diagnostics} : merge lists = [] ↔ lists.flatten = [] := by
  rw [← List.perm_nil, ← List.perm_nil]
  exact ⟨(merge_perm lists).symm.trans, (merge_perm lists).trans⟩

/-- Diagnostics that are moved together stay in their order. -/
theorem merge_map {f : Diagnostic → Diagnostic} (h : ∀ d e, (f d).before (f e) = d.before e)
    (lists : List Diagnostics) : merge (lists.map (List.map f)) = (merge lists).map f := by
  rw [merge, sorted, ← List.map_flatten, stableSort_map h]
  rfl

/-- What is merged in besides moved diagnostics stands in front of what they are merged to, up to order. -/
theorem merge_append_map_perm (f : Diagnostic → Diagnostic) (new as bs : Diagnostics) :
    (merge [as.map f, new ++ bs.map f]).Perm (new ++ (merge [as, bs]).map f) := by
  have hmoved : (as.map f ++ bs.map f).Perm ((merge [as, bs]).map f) := by
    simpa using ((merge_perm [as, bs]).map f).symm
  have hfront : (as.map f ++ (new ++ bs.map f)).Perm (new ++ (as.map f ++ bs.map f)) :=
    List.perm_append_comm_assoc _ _ _
  refine (merge_perm _).trans ?_
  simpa using hfront.trans (hmoved.append_left new)

end Diagnostics

end SmallJava
