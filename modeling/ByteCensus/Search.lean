/-!
# Bisection

Two searches by halving in an array that is ordered for the question asked.

* `Search.countWhile p xs` is the length of the longest initial stretch on which `p` holds,
  provided `p` holds nowhere behind it.
* `Search.locate? position xs` is an index whose element sits at the place searched for, where
  `position` says whether an element lies before it (`lt`), behind it (`gt`) or there (`eq`).  Of
  several such elements it reports the one that halving meets first.

Both carry the bound of the stretch still searched, so every access is within the array.
-/

namespace ByteCensus.Search

variable {α : Type}

/-- `countWhile` on the stretch from `lo` up to `hi`, given that `p` holds before `lo`. -/
def countBetween (p : α → Bool) (xs : Array α) (lo hi : Nat) (bound : hi ≤ xs.size) : Nat :=
  if nonempty : lo < hi then
    let mid := lo + (hi - lo) / 2
    have inside : mid < xs.size := by omega
    -- `p` holds up to `mid` if it holds there, and from `mid` on nowhere if it does not.
    if p xs[mid] then countBetween p xs (mid + 1) hi bound
    else countBetween p xs lo mid (Nat.le_of_lt inside)
  else lo
termination_by hi - lo

/-- How many elements come before the first one without `p`. -/
def countWhile (p : α → Bool) (xs : Array α) : Nat :=
  countBetween p xs 0 xs.size (Nat.le_refl _)

/-- `locate?` on the stretch from `lo` up to `hi`. -/
def locateBetween? (position : α → Ordering) (xs : Array α) (lo hi : Nat)
    (bound : hi ≤ xs.size) : Option Nat :=
  if nonempty : lo < hi then
    let mid := lo + (hi - lo) / 2
    have inside : mid < xs.size := by omega
    match position xs[mid] with
    | .eq => some mid
    | .lt => locateBetween? position xs (mid + 1) hi bound
    | .gt => locateBetween? position xs lo mid (Nat.le_of_lt inside)
  else none
termination_by hi - lo

/-- The index of an element in place, if there is one. -/
def locate? (position : α → Ordering) (xs : Array α) : Option Nat :=
  locateBetween? position xs 0 xs.size (Nat.le_refl _)

/-! ### What the searches find -/

theorem countBetween_bounds (p : α → Bool) (xs : Array α) (lo hi : Nat) (bound : hi ≤ xs.size)
    (h : lo ≤ hi) :
    lo ≤ countBetween p xs lo hi bound ∧ countBetween p xs lo hi bound ≤ hi := by
  fun_induction countBetween p xs lo hi bound with
  | case1 lo hi bound nonempty mid inside hp ih => have := ih (by omega); omega
  | case2 lo hi bound nonempty mid inside hp ih => have := ih (by omega); omega
  | case3 lo hi bound closed => omega

/-- The search never leaves the array. -/
theorem countWhile_le (p : α → Bool) (xs : Array α) : countWhile p xs ≤ xs.size :=
  (countBetween_bounds p xs 0 xs.size (Nat.le_refl _) (Nat.zero_le _)).2

/-- What `locate?` reports is in the array and in place. -/
theorem position_of_locateBetween? {position : α → Ordering} {xs : Array α} {lo hi : Nat}
    {bound : hi ≤ xs.size} {i : Nat} (h : locateBetween? position xs lo hi bound = some i) :
    ∃ inside : i < xs.size, position xs[i] = .eq := by
  fun_induction locateBetween? position xs lo hi bound with
  | case1 lo hi bound nonempty mid inside here =>
    obtain rfl := Option.some.inj h
    exact ⟨inside, here⟩
  | case2 lo hi bound nonempty mid inside before ih => exact ih h
  | case3 lo hi bound nonempty mid inside behind ih => exact ih h
  | case4 => cases h

theorem position_of_locate? {position : α → Ordering} {xs : Array α} {i : Nat}
    (h : locate? position xs = some i) : ∃ inside : i < xs.size, position xs[i] = .eq :=
  position_of_locateBetween? h

end ByteCensus.Search
