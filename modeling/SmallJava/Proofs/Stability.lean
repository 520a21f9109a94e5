import Mathlib.Data.Nat.Find
import SmallJava.Proofs.Sorting
import SmallJava.Proofs.Text.Lines

/-!
# Sorting is stable

If the comparison is that of keys, `stableSort` puts a list in the order of the keys, and elements with equal keys keep
their order (`stableSort_orders`). It is enough that the comparison is that of keys for the elements of the list.

Two sorted lists are merged at a cut: a search finds how much of each list goes in front, and what is in front of the
cut is not more than what is behind it. Elements of the second list in front of the cut are even less than those of the
first list behind it, so that none with an equal key is overtaken (`Merges.crosswise`).
-/

namespace SmallJava

/-- **A search ends at the border** of a test that never goes from true back to false. -/
theorem bisect_border {p : Nat → Bool} {lo hi : Nat} (hle : lo ≤ hi)
    (hmono : ∀ i j, lo ≤ i → i ≤ j → j < hi → p i = true → p j = true) :
    lo ≤ bisect p lo hi ∧ bisect p lo hi ≤ hi ∧ (∀ i, lo ≤ i → i < bisect p lo hi → p i = false) ∧
      ∀ i, bisect p lo hi ≤ i → i < hi → p i = true := by
  obtain ⟨border, hlo, hhi, hbefore, hfrom⟩ : ∃ border, lo ≤ border ∧ border ≤ hi ∧
      (∀ i, lo ≤ i → i < border → p i = false) ∧ ∀ i, border ≤ i → i < hi → p i = true := by
    by_cases h : ∃ i, lo ≤ i ∧ i < hi ∧ p i = true
    · -- the least index at which the test holds
      obtain ⟨hlo, hlt, hp⟩ := Nat.find_spec h
      refine ⟨Nat.find h, hlo, Nat.le_of_lt hlt, fun i hi hlt' => ?_, fun i hi hlt' => hmono _ i hlo hi hlt' hp⟩
      have hmin := Nat.find_min h hlt'
      exact Bool.eq_false_iff.2 fun hpi => hmin ⟨hi, by omega, hpi⟩
    · refine ⟨hi, hle, Nat.le_refl _, fun i hlo hlt => ?_, by omega⟩
      exact Bool.eq_false_iff.2 fun hpi => h ⟨i, hlo, hlt, hpi⟩
  rw [bisect_eq hlo hhi hbefore hfrom]
  exact ⟨hlo, hhi, hbefore, hfrom⟩

namespace StableSort

variable {α : Type} (key : α → Int)

/-- The elements of a list with a given key. -/
def withKey (v : Int) (xs : List α) : List α := xs.filter (key · = v)

/-- The keys do not fall. -/
def Ascending (xs : List α) : Prop := xs.Pairwise (key · ≤ key ·)

/-- **In stable order**: `ys` is `xs` in the order of the keys, and elements with equal keys are in their old order. -/
structure Orders (xs ys : List α) : Prop where
  ascending : Ascending key ys
  stable : ∀ v, withKey key v ys = withKey key v xs

/-- **A stable merge** of two lists: of elements with equal keys those of the first list come first. -/
def Merges (xs ys zs : List α) : Prop := Orders key (xs ++ ys) zs

variable {key} {xs ys zs : List α}

@[simp] theorem withKey_append (v : Int) (xs ys : List α) :
    withKey key v (xs ++ ys) = withKey key v xs ++ withKey key v ys := List.filter_append ..

theorem withKey_eq_nil {v : Int} (h : ∀ x ∈ xs, key x ≠ v) : withKey key v xs = [] :=
  List.filter_eq_nil_iff.2 fun x hx => by simpa using h x hx

/-- Elements of one list that are all less than those of another one have no keys with them in common. -/
theorem withKey_comm (h : ∀ x ∈ xs, ∀ y ∈ ys, key x < key y) (v : Int) :
    withKey key v xs ++ withKey key v ys = withKey key v ys ++ withKey key v xs := by
  by_cases hx : ∃ x ∈ xs, key x = v
  · obtain ⟨x, hx, rfl⟩ := hx
    rw [withKey_eq_nil fun y hy => Int.ne_of_gt (h x hx y hy), List.append_nil, List.nil_append]
  · rw [withKey_eq_nil fun x hx' hv => hx ⟨x, hx', hv⟩, List.append_nil, List.nil_append]

/-- Lists that have the same elements with each key have the same elements. -/
theorem mem_iff_of_withKey (h : ∀ v, withKey key v ys = withKey key v zs) {x : α} : x ∈ ys ↔ x ∈ zs := by
  simpa [withKey] using congrArg (x ∈ ·) (h (key x))

/-- Nothing is lost and nothing is added. -/
theorem Orders.mem_iff (h : Orders key xs ys) {x : α} : x ∈ ys ↔ x ∈ xs := mem_iff_of_withKey h.stable

/-- Lists in ascending order that have the same elements with each key, in the same order, are the same. -/
theorem Ascending.eq_of_withKey (hys : Ascending key ys) (hzs : Ascending key zs)
    (h : ∀ v, withKey key v ys = withKey key v zs) : ys = zs := by
  induction ys generalizing zs with
  | nil => exact (List.eq_nil_iff_forall_not_mem.2 fun z hz => nomatch (mem_iff_of_withKey h).2 hz).symm
  | cons y ys ih =>
    cases zs with
    | nil => exact nomatch (mem_iff_of_withKey h).1 List.mem_cons_self
    | cons z zs =>
      obtain ⟨hy, hys'⟩ := List.pairwise_cons.1 hys
      obtain ⟨hz, hzs'⟩ := List.pairwise_cons.1 hzs
      -- neither of the first elements is greater than the other, and of those with their key they are the first
      have hkey : key y = key z := by
        apply Int.le_antisymm
        · rcases List.mem_cons.1 ((mem_iff_of_withKey h).2 (List.mem_cons_self (a := z))) with rfl | hin
          · exact Int.le_refl _
          · exact hy z hin
        · rcases List.mem_cons.1 ((mem_iff_of_withKey h).1 (List.mem_cons_self (a := y))) with rfl | hin
          · exact Int.le_refl _
          · exact hz y hin
      have hfirst := h (key y)
      simp only [withKey, List.filter_cons, hkey, decide_true, if_true] at hfirst
      obtain rfl : y = z := (List.cons.inj hfirst).1
      congr 1
      refine ih hys' hzs' fun v => ?_
      have hv := h v
      simp only [withKey, List.filter_cons] at hv ⊢
      split at hv
      · exact (List.cons.inj hv).2
      · exact hv

/-- **There is one stable order** of a list. -/
theorem Orders.unique (hys : Orders key xs ys) (hzs : Orders key xs zs) : ys = zs :=
  hys.ascending.eq_of_withKey hzs.ascending fun v => (hys.stable v).trans (hzs.stable v).symm

/-- What is in front of a list and not greater than anything in it stays in front. -/
theorem Orders.cons (h : Orders key xs ys) {x : α} (hx : ∀ y ∈ xs, key x ≤ key y) :
    Orders key (x :: xs) (x :: ys) where
  ascending := List.pairwise_cons.2 ⟨fun y hy => hx y (h.mem_iff.1 hy), h.ascending⟩
  stable v := by
    have hv := h.stable v
    simp only [withKey, List.filter_cons] at hv ⊢
    rw [hv]

/-! ## Insertion -/

/-- An element that is inserted is put in front of those with an equal key. -/
theorem insertDescending_orders (x : α) (hys : Ascending key ys.reverse) :
    Orders key (ys.reverse ++ [x]) (insertDescending (fun x y => decide (key x < key y)) x ys).reverse := by
  induction ys with
  | nil => exact ⟨List.pairwise_singleton _ _, fun _ => rfl⟩
  | cons y ys ih =>
    rw [List.reverse_cons] at hys
    obtain ⟨hfront, -, hlast⟩ := List.pairwise_append.1 hys
    rw [insertDescending]
    split
    · next hless =>
      -- the element passes one with a greater key only, so that none with its own is overtaken
      have hlt : key x < key y := of_decide_eq_true hless
      have hrest := ih hfront
      rw [List.reverse_cons, List.reverse_cons]
      refine ⟨List.pairwise_append.2 ⟨hrest.ascending, List.pairwise_singleton _ _, fun z hz w hw => ?_⟩, fun v => ?_⟩
      · obtain rfl := List.mem_singleton.1 hw
        rcases List.mem_append.1 (hrest.mem_iff.1 hz) with hz | hz
        · exact hlast z hz w (List.mem_singleton_self w)
        · rw [List.mem_singleton.1 hz]
          exact Int.le_of_lt hlt
      · have hswap : withKey key v [x] ++ withKey key v [y] = withKey key v [y] ++ withKey key v [x] :=
          withKey_comm (by simpa using hlt) v
        simp only [withKey_append, hrest.stable, List.append_assoc, hswap]
    · next hless =>
      have hle : key y ≤ key x := Int.not_lt.1 fun hlt => hless (decide_eq_true hlt)
      rw [List.reverse_cons (a := x), List.reverse_cons]
      refine ⟨List.pairwise_append.2 ⟨hys, List.pairwise_singleton _ _, fun z hz w hw => ?_⟩, fun v => rfl⟩
      obtain rfl := List.mem_singleton.1 hw
      rcases List.mem_append.1 hz with hz | hz
      · exact Int.le_trans (hlast z hz y (List.mem_singleton_self y)) hle
      · rw [List.mem_singleton.1 hz]
        exact hle

theorem foldl_insertDescending_orders (xs : List α) {sorted : List α} (hsorted : Ascending key sorted.reverse) :
    Orders key (sorted.reverse ++ xs)
      (xs.foldl (fun sorted x => insertDescending (fun x y => decide (key x < key y)) x sorted) sorted).reverse := by
  induction xs generalizing sorted with
  | nil => exact ⟨hsorted, fun v => by rw [List.append_nil, List.foldl_nil]⟩
  | cons x xs ih =>
    have hx := insertDescending_orders x hsorted
    have hrest := ih hx.ascending
    refine ⟨hrest.ascending, fun v => ?_⟩
    rw [List.foldl_cons, hrest.stable, withKey_append, hx.stable, ← withKey_append, List.append_assoc,
      List.singleton_append]

theorem insertionSort_orders (xs : List α) :
    Orders key xs (insertionSort (fun x y => decide (key x < key y)) xs) := by
  have hnil : Ascending key ([] : List α).reverse := .nil
  exact foldl_insertDescending_orders xs hnil

/-! ## Merging -/

theorem Ascending.left (h : Ascending key (xs ++ ys)) : Ascending key xs := (List.pairwise_append.1 h).1

theorem Ascending.right (h : Ascending key (xs ++ ys)) : Ascending key ys := (List.pairwise_append.1 h).2.1

theorem Merges.append (hxs : Ascending key xs) (hys : Ascending key ys) (h : ∀ x ∈ xs, ∀ y ∈ ys, key x ≤ key y) :
    Merges key xs ys (xs ++ ys) :=
  ⟨List.pairwise_append.2 ⟨hxs, hys, h⟩, fun _ => rfl⟩

/-- Elements of the second list come first only if they are less. -/
theorem Merges.append_swap (hxs : Ascending key xs) (hys : Ascending key ys)
    (h : ∀ y ∈ ys, ∀ x ∈ xs, key y < key x) : Merges key xs ys (ys ++ xs) where
  ascending := List.pairwise_append.2 ⟨hys, hxs, fun y hy x hx => Int.le_of_lt (h y hy x hx)⟩
  stable v := by rw [withKey_append, withKey_append, withKey_comm h]

/-- **Merging in two parts.** What is in front of the cut in either list is not more than what is behind it in the other
one, and less where the second list would overtake the first. -/
theorem Merges.crosswise {xs' ys' zs' : List α} (hxs : Ascending key (xs ++ xs')) (hys : Ascending key (ys ++ ys'))
    (hle : ∀ x ∈ xs, ∀ y ∈ ys', key x ≤ key y) (hlt : ∀ y ∈ ys, ∀ x ∈ xs', key y < key x)
    (h : Merges key xs ys zs) (h' : Merges key xs' ys' zs') : Merges key (xs ++ xs') (ys ++ ys') (zs ++ zs') where
  ascending := by
    refine List.pairwise_append.2 ⟨h.ascending, h'.ascending, fun z hz w hw => ?_⟩
    rcases List.mem_append.1 (h.mem_iff.1 hz) with hz | hz <;> rcases List.mem_append.1 (h'.mem_iff.1 hw) with hw | hw
    · exact (List.pairwise_append.1 hxs).2.2 z hz w hw
    · exact hle z hz w hw
    · exact Int.le_of_lt (hlt z hz w hw)
    · exact (List.pairwise_append.1 hys).2.2 z hz w hw
  stable v := by
    have hswap := withKey_comm hlt v
    rw [withKey_append, h.stable, h'.stable]
    simp only [withKey_append, List.append_assoc]
    rw [← List.append_assoc (withKey key v ys), hswap, List.append_assoc]

section Cut

theorem Ascending.getElem_le (h : Ascending key xs) {i j : Nat} (hij : i ≤ j) (hj : j < xs.length) :
    key xs[i] ≤ key xs[j] := by
  rcases Nat.lt_or_eq_of_le hij with hlt | rfl
  · exact List.pairwise_iff_getElem.1 h i j (by omega) hj hlt
  · exact Int.le_refl _

/-- What is in front of an index is not more than what is there. -/
theorem Ascending.le_of_mem_take (h : Ascending key xs) {i : Nat} (hi : i < xs.length) {x : α}
    (hx : x ∈ xs.take (i + 1)) : key x ≤ key xs[i] := by
  obtain ⟨j, hj, rfl⟩ := List.mem_iff_getElem.1 hx
  rw [List.length_take] at hj
  rw [List.getElem_take]
  exact h.getElem_le (by omega) hi

/-- What is from an index on is not less than what is there. -/
theorem Ascending.le_of_mem_drop (h : Ascending key xs) {i : Nat} (hi : i < xs.length) {x : α} (hx : x ∈ xs.drop i) :
    key xs[i] ≤ key x := by
  obtain ⟨j, hj, rfl⟩ := List.mem_iff_getElem.1 hx
  rw [List.length_drop] at hj
  rw [List.getElem_drop]
  exact h.getElem_le (by omega) (by omega)

end Cut

/-- A search among ascending keys finds those for which a test that stays true holds. -/
theorem Ascending.bisect_cut (h : Ascending key xs) {q : α → Bool}
    (hq : ∀ x y, key x ≤ key y → q x = true → q y = true) :
    let i := bisect (fun k => match xs[k]? with | some x => q x | none => true) 0 xs.length
    (∀ x ∈ xs.take i, q x = false) ∧ ∀ x ∈ xs.drop i, q x = true := by
  intro i
  have htest : ∀ k, ∀ hk : k < xs.length, (match xs[k]? with | some x => q x | none => true) = q xs[k] := by
    intro k hk
    rw [List.getElem?_eq_getElem hk]
  obtain ⟨-, hle, hbefore, hfrom⟩ := bisect_border (p := fun k => match xs[k]? with | some x => q x | none => true)
    (Nat.zero_le xs.length) (by
      intro j k _ hjk hk hj
      rw [htest k hk]
      rw [htest j (by omega)] at hj
      exact hq _ _ (h.getElem_le hjk hk) hj)
  refine ⟨fun x hx => ?_, fun x hx => ?_⟩
  · obtain ⟨k, hk, rfl⟩ := List.mem_iff_getElem.1 hx
    rw [List.length_take] at hk
    rw [List.getElem_take, ← htest k (by omega)]
    exact hbefore k (Nat.zero_le _) (by omega)
  · obtain ⟨k, hk, rfl⟩ := List.mem_iff_getElem.1 hx
    rw [List.length_drop] at hk
    rw [List.getElem_drop, ← htest (i + k) (by omega)]
    exact hfrom (i + k) (Nat.le_add_right _ _) (by omega)

/-- Whether an element of the second list overtakes the one at `k` in the first: it is the one that would stand in front
of the middle if what is from `k` on in the first list stood behind it. -/
def overtakes (key : α → Int) (xs ys : List α) (mid k : Nat) : Bool :=
  match ys[mid - 1 - k]?, xs[k]? with
  | some y, some x => decide (key y < key x)
  | _, _ => false

theorem split_eq_bisect {mid lo hi : Nat} :
    split (fun x y => decide (key x < key y)) xs ys mid lo hi = bisect (overtakes key xs ys mid) lo hi := rfl

theorem overtakes_eq {mid k : Nat} (hy : mid - 1 - k < ys.length) (hx : k < xs.length) :
    overtakes key xs ys mid k = decide (key ys[mid - 1 - k] < key xs[k]) := by
  rw [overtakes, List.getElem?_eq_getElem hy, List.getElem?_eq_getElem hx]

/-- The keys of the first list rise and those against which they stand fall. -/
theorem overtakes_mono (hxs : Ascending key xs) (hys : Ascending key ys) {mid j k : Nat} (hjk : j ≤ k)
    (hy : mid - 1 - j < ys.length) (hx : k < xs.length) (h : overtakes key xs ys mid j = true) :
    overtakes key xs ys mid k = true := by
  rw [overtakes_eq hy (by omega)] at h
  rw [overtakes_eq (by omega) hx]
  have hlt := of_decide_eq_true h
  have hrise := hxs.getElem_le hjk hx
  have hfall := hys.getElem_le (i := mid - 1 - k) (j := mid - 1 - j) (by omega) hy
  exact decide_eq_true (by omega)

/-- **The cut of a symmetric merge.** -/
theorem split_cut (hxs : Ascending key xs) (hys : Ascending key ys) {mid : Nat} (hmid : mid ≤ xs.length + ys.length) :
    let i := split (fun x y => decide (key x < key y)) xs ys mid (mid - ys.length) (min mid xs.length)
    (∀ x ∈ xs.take i, ∀ y ∈ ys.drop (mid - i), key x ≤ key y) ∧
      ∀ y ∈ ys.take (mid - i), ∀ x ∈ xs.drop i, key y < key x := by
  intro i
  have hmono : ∀ j k, mid - ys.length ≤ j → j ≤ k → k < min mid xs.length →
      overtakes key xs ys mid j = true → overtakes key xs ys mid k = true := by
    intro j k hj hjk hk
    exact overtakes_mono hxs hys hjk (by omega) (by omega)
  obtain ⟨hlo, hhi, hbefore, hfrom⟩ := bisect_border (by omega) hmono
  rw [← split_eq_bisect] at hlo hhi hbefore hfrom
  change mid - ys.length ≤ i at hlo
  change i ≤ min mid xs.length at hhi
  constructor
  · -- the last element in front of the cut is not overtaken
    intro x hx y hy
    have hpos := List.length_pos_of_mem hx
    have hpos' := List.length_pos_of_mem hy
    rw [List.length_take] at hpos
    rw [List.length_drop] at hpos'
    have hxi : i - 1 < xs.length := by omega
    have hyi : mid - 1 - (i - 1) < ys.length := by omega
    have hfalse := hbefore (i - 1) (by omega) (show i - 1 < i by omega)
    rw [overtakes_eq hyi hxi] at hfalse
    have hle := of_decide_eq_false hfalse
    have hfront := hxs.le_of_mem_take hxi (by rwa [Nat.sub_add_cancel (by omega)])
    have hback := hys.le_of_mem_drop hyi (by rwa [show mid - 1 - (i - 1) = mid - i by omega])
    omega
  · -- the first element behind it is
    intro y hy x hx
    have hpos := List.length_pos_of_mem hy
    have hpos' := List.length_pos_of_mem hx
    rw [List.length_take] at hpos
    rw [List.length_drop] at hpos'
    have hxi : i < xs.length := by omega
    have hyi : mid - 1 - i < ys.length := by omega
    have htrue := hfrom i (Nat.le_refl _) (by omega)
    rw [overtakes_eq hyi hxi] at htrue
    have hlt := of_decide_eq_true htrue
    have hfront := hys.le_of_mem_take hyi (by rwa [show mid - 1 - i + 1 = mid - i by omega])
    have hback := hxs.le_of_mem_drop hxi hx
    omega

/-- **Sorted lists are merged in stable order.** -/
theorem symMerge_merges (hxs : Ascending key xs) (hys : Ascending key ys) :
    Merges key xs ys (symMerge (fun x y => decide (key x < key y)) xs ys) := by
  fun_induction symMerge (fun x y => decide (key x < key y)) xs ys with
  | case1 ys => exact .append hxs hys (by simp)
  | case2 xs =>
    have h := Merges.append hxs hys (by simp)
    rwa [List.append_nil] at h
  | case3 x ys _ i =>
    obtain ⟨hbefore, hfrom⟩ : (∀ y ∈ ys.take i, (!decide (key y < key x)) = false) ∧
        ∀ y ∈ ys.drop i, (!decide (key y < key x)) = true :=
      hys.bisect_cut (q := fun y => !decide (key y < key x)) (by
        intro y z hyz hy
        simp only [Bool.not_eq_true', decide_eq_false_iff_not] at hy ⊢
        omega)
    simp only [Bool.not_eq_eq_eq_not, Bool.not_false, Bool.not_true, decide_eq_true_eq, decide_eq_false_iff_not]
      at hbefore hfrom
    rw [← List.take_append_drop i ys] at hys
    -- the only element of the first list stands behind those that are less, and in front of those with its key
    have hfront : Merges key [] (ys.take i) (ys.take i) := .append .nil hys.left (by simp)
    have hback : Merges key [x] (ys.drop i) ([x] ++ ys.drop i) := by
      refine .append hxs hys.right fun z hz y hy => ?_
      rw [List.mem_singleton.1 hz]
      exact Int.not_lt.1 (hfrom y hy)
    have h := hfront.crosswise hxs hys (by simp) (by simpa using hbefore) hback
    rwa [List.take_append_drop] at h
  | case4 xs y _ _ i =>
    obtain ⟨hbefore, hfrom⟩ : (∀ x ∈ xs.take i, decide (key y < key x) = false) ∧
        ∀ x ∈ xs.drop i, decide (key y < key x) = true :=
      hxs.bisect_cut (q := fun x => decide (key y < key x)) (by
        intro x z hxz hx
        simp only [decide_eq_true_eq] at hx ⊢
        omega)
    simp only [decide_eq_true_eq, decide_eq_false_iff_not] at hbefore hfrom
    rw [← List.take_append_drop i xs] at hxs
    -- the only element of the second list stands behind those with its key
    have hfront : Merges key (xs.take i) [] (xs.take i ++ []) := .append hxs.left .nil (by simp)
    have hback : Merges key (xs.drop i) [y] ([y] ++ xs.drop i) := .append_swap hxs.right hys (by simpa using hfrom)
    have hle : ∀ x ∈ xs.take i, ∀ z ∈ [y], key x ≤ key z := by
      intro x hx z hz
      rw [List.mem_singleton.1 hz]
      exact Int.not_lt.1 (hbefore x hx)
    have h := hfront.crosswise hxs hys hle (by simp) hback
    rwa [List.take_append_drop, List.append_nil] at h
  | case5 x x' xs y y' ys l r mid i ihl ihr =>
    obtain ⟨hle, hlt⟩ : (∀ x ∈ l.take i, ∀ y ∈ r.drop (mid - i), key x ≤ key y) ∧
        ∀ y ∈ r.take (mid - i), ∀ x ∈ l.drop i, key y < key x :=
      split_cut hxs hys (show mid ≤ l.length + r.length by omega)
    have hl : l = l.take i ++ l.drop i := (List.take_append_drop _ _).symm
    have hr : r = r.take (mid - i) ++ r.drop (mid - i) := (List.take_append_drop _ _).symm
    change Ascending key l at hxs
    change Ascending key r at hys
    rw [hl] at hxs
    rw [hr] at hys
    have h := (ihl hxs.left hys.left).crosswise hxs hys hle hlt (ihr hxs.right hys.right)
    rwa [← hl, ← hr] at h

/-! ## Merging blocks -/

theorem flatten_map_insertionSort_orders (bs : List (List α)) (v : Int) :
    withKey key v (bs.map (insertionSort fun x y => decide (key x < key y))).flatten = withKey key v bs.flatten := by
  induction bs with
  | nil => rfl
  | cons b bs ih =>
    rw [List.map_cons, List.flatten_cons, List.flatten_cons, withKey_append, withKey_append, ih,
      (insertionSort_orders b).stable]

theorem mergePairs_ascending {bs : List (List α)} (h : ∀ b ∈ bs, Ascending key b) :
    (∀ b ∈ mergePairs (fun x y => decide (key x < key y)) bs, Ascending key b) ∧
      ∀ v, withKey key v (mergePairs (fun x y => decide (key x < key y)) bs).flatten = withKey key v bs.flatten := by
  fun_induction mergePairs (fun x y => decide (key x < key y)) bs with
  | case1 a b bs ih =>
    obtain ⟨hfirst, hrest⟩ := List.forall_mem_cons.1 h
    obtain ⟨hsecond, hrest⟩ := List.forall_mem_cons.1 hrest
    have hmerge := symMerge_merges hfirst hsecond
    obtain ⟨hascending, hstable⟩ := ih hrest
    refine ⟨List.forall_mem_cons.2 ⟨hmerge.ascending, hascending⟩, fun v => ?_⟩
    simp only [List.flatten_cons, withKey_append, hmerge.stable, hstable, List.append_assoc]
  | case2 bs => exact ⟨h, fun _ => rfl⟩

/-- A round halves the number of blocks. -/
theorem length_mergePairs (less : α → α → Bool) (bs : List (List α)) :
    (mergePairs less bs).length = (bs.length + 1) / 2 := by
  fun_induction mergePairs less bs with
  | case1 a b bs ih =>
    simp only [List.length_cons, ih]
    omega
  | case2 bs hne =>
    rcases bs with _ | ⟨a, _ | ⟨b, bs⟩⟩
    · simp
    · simp
    · exact absurd rfl (hne a b bs)

theorem mergeAll_orders {rounds : Nat} {bs : List (List α)} (hrounds : bs.length ≤ rounds)
    (h : ∀ b ∈ bs, Ascending key b) :
    Orders key bs.flatten (mergeAll (fun x y => decide (key x < key y)) rounds bs) := by
  fun_induction mergeAll (fun x y => decide (key x < key y)) rounds bs with
  | case1 bs =>
    rw [List.length_eq_zero_iff.1 (Nat.le_zero.1 hrounds)]
    exact ⟨.nil, fun _ => rfl⟩
  | case2 => exact ⟨.nil, fun _ => rfl⟩
  | case3 _ b => exact ⟨h b (List.mem_singleton_self b), fun v => by simp⟩
  | case4 rounds bs hnil hone ih =>
    obtain ⟨hascending, hstable⟩ := mergePairs_ascending h
    have hmany : 2 ≤ bs.length := by
      rcases bs with _ | ⟨a, _ | ⟨b, bs⟩⟩
      · exact absurd rfl hnil
      · exact absurd rfl (hone a)
      · simp
    have hrest := ih (by rw [length_mergePairs]; omega) hascending
    exact ⟨hrest.ascending, fun v => (hrest.stable v).trans (hstable v)⟩

end StableSort

open StableSort

/-- Sorting by the comparison of keys. -/
theorem stableSort_orders_keys {α : Type} (key : α → Int) (xs : List α) :
    Orders key xs (stableSort (fun x y => decide (key x < key y)) xs) := by
  have hsorted : ∀ b ∈ (blocks blockSize xs).map (insertionSort fun x y => decide (key x < key y)),
      Ascending key b := by
    intro b hb
    obtain ⟨b₀, -, rfl⟩ := List.mem_map.1 hb
    exact (insertionSort_orders b₀).ascending
  have hall := mergeAll_orders (Nat.le_refl _) hsorted
  refine ⟨hall.ascending, fun v => (hall.stable v).trans ?_⟩
  rw [flatten_map_insertionSort_orders, flatten_blocks]

/-- **Sorting by keys is stable.** The comparison has to be that of the keys for the elements of the list only. -/
theorem stableSort_orders {α : Type} {less : α → α → Bool} {key : α → Int} {xs : List α}
    (h : ∀ x ∈ xs, ∀ y ∈ xs, less x y = decide (key x < key y)) : Orders key xs (stableSort less xs) := by
  -- the elements of the list are a type of their own, on which the comparison is that of keys
  have hsub := stableSort_orders_keys (fun x : { x // x ∈ xs } => key x) xs.attach
  have hcompare : ∀ x y : { x // x ∈ xs }, less x.1 y.1 = decide (key x < key y) := fun x y => h x x.2 y y.2
  have hmap := stableSort_map (f := Subtype.val) hcompare xs.attach
  have hkeys : ∀ (v : Int) (ys : List { x // x ∈ xs }),
      withKey key v (ys.map Subtype.val) = (withKey (fun x : { x // x ∈ xs } => key x) v ys).map Subtype.val := by
    intro v ys
    rw [withKey, withKey, List.filter_map]
    rfl
  rw [List.attach_map_subtype_val] at hmap
  rw [hmap]
  refine ⟨List.pairwise_map.2 hsub.ascending, fun v => ?_⟩
  rw [hkeys, hsub.stable, ← hkeys, List.attach_map_subtype_val]

/-- Where a diagnostic starts. -/
def Diagnostic.start (d : Diagnostic) : Int := d.location.span.start

/-- Offsets that are not negative and fit a word are compared as numbers. -/
theorem Diagnostic.before_eq {d e : Diagnostic} (hd : 0 ≤ d.start ∧ d.start < 0x8000000000000000)
    (he : 0 ≤ e.start ∧ e.start < 0x8000000000000000) : d.before e = decide (d.start < e.start) := by
  have hword : word (d.start - e.start) = d.start - e.start := word_eq_self (by omega) (by omega)
  rw [Diagnostic.before, show d.location.span.start - e.location.span.start = d.start - e.start from rfl, hword]
  exact decide_eq_decide.2 (by omega)

/-- **Diagnostics are merged in stable order**: by where they start, and those that start together in the order of the
lists. -/
theorem Diagnostics.merge_orders {lists : List Diagnostics}
    (h : ∀ d ∈ lists.flatten, 0 ≤ d.start ∧ d.start < 0x8000000000000000) :
    Orders Diagnostic.start lists.flatten (merge lists) :=
  stableSort_orders fun d hd e he => Diagnostic.before_eq (h d hd) (h e he)

/-- The first of the diagnostics stays in front of the others if it starts in front of them. -/
theorem Diagnostics.merge_cons {d : Diagnostic} {ds : Diagnostics} {lists : List Diagnostics}
    (hrange : ∀ e ∈ ((d :: ds) :: lists).flatten, 0 ≤ e.start ∧ e.start < 0x8000000000000000)
    (hfirst : ∀ e ∈ (ds :: lists).flatten, d.start ≤ e.start) :
    merge ((d :: ds) :: lists) = d :: merge (ds :: lists) := by
  have hrest : Orders Diagnostic.start (ds :: lists).flatten (merge (ds :: lists)) :=
    merge_orders fun e he => hrange e (List.mem_cons_of_mem d he)
  exact (merge_orders hrange).unique (hrest.cons hfirst)

end SmallJava
