import Mathlib.Tactic.ByContra
import ByteCensus.Search

/-!
# Bisection finds the border, and an element in place

`countWhile_spec`: if `p` never holds behind an element where it does not, then `countWhile p xs`
is the border itself, `p` holds before it and nowhere from it on.

`locates_locate?`: if what lies before the place searched for stands first and what lies behind it
stands last, then `locate?` reports an element in place wherever there is one.  Which one is an
accident of halving; `Locates` is what any search of this kind promises.
-/

namespace ByteCensus.Search

variable {α : Type} {p : α → Bool} {xs : Array α}

/-! ### The border -/

/-- `p` holds on an initial stretch of the array and nowhere behind it. -/
def IsInitial (p : α → Bool) (xs : Array α) : Prop :=
  ∀ (i j : Nat) (x y : α), i ≤ j → xs[i]? = some x → xs[j]? = some y → p y = true → p x = true

theorem countBetween_spec {lo hi : Nat} {bound : hi ≤ xs.size} (hinit : IsInitial p xs)
    (hlo : ∀ (i : Nat) (x : α), i < lo → xs[i]? = some x → p x = true)
    (hhi : ∀ (i : Nat) (x : α), hi ≤ i → xs[i]? = some x → p x = false) (hle : lo ≤ hi) :
    (∀ (i : Nat) (x : α), i < countBetween p xs lo hi bound → xs[i]? = some x → p x = true) ∧
      ∀ (i : Nat) (x : α), countBetween p xs lo hi bound ≤ i → xs[i]? = some x → p x = false := by
  fun_induction countBetween p xs lo hi bound with
  | case1 lo hi bound nonempty mid inside hp ih =>
    apply ih
    · intro i x hi hx
      -- `p` holds in the middle, hence everywhere before it.
      exact hinit i mid x xs[mid] (by omega) hx (Array.getElem?_eq_getElem inside) hp
    · exact hhi
    · omega
  | case2 lo hi bound nonempty mid inside hp ih =>
    apply ih
    · exact hlo
    · intro i x hi hx
      by_contra hpx
      -- `p` fails in the middle, hence everywhere behind it.
      exact hp (hinit mid i xs[mid] x hi (Array.getElem?_eq_getElem inside) hx (by simpa using hpx))
    · omega
  | case3 lo hi bound closed =>
    obtain rfl : lo = hi := by omega
    exact ⟨hlo, hhi⟩

theorem countWhile_spec (hinit : IsInitial p xs) :
    (∀ (i : Nat) (x : α), i < countWhile p xs → xs[i]? = some x → p x = true) ∧
      ∀ (i : Nat) (x : α), countWhile p xs ≤ i → xs[i]? = some x → p x = false := by
  apply countBetween_spec hinit
  · intro i x hi
    omega
  · intro i x hi hx
    rw [Array.getElem?_eq_none hi] at hx
    cases hx
  · exact Nat.zero_le _

/-! ### Elements in place -/

/-- What lies before the place searched for stands first, and what lies behind it stands last. -/
structure IsOrdered (position : α → Ordering) (xs : Array α) : Prop where
  before : IsInitial (fun x => position x = .lt) xs
  notBehind : IsInitial (fun x => position x ≠ .gt) xs

/-- Halving reports nothing only where nothing is in place. -/
theorem position_ne_eq_of_locateBetween? {position : α → Ordering} {lo hi : Nat}
    {bound : hi ≤ xs.size} (hordered : IsOrdered position xs)
    (hlo : ∀ (i : Nat) (x : α), i < lo → xs[i]? = some x → position x = .lt)
    (hhi : ∀ (i : Nat) (x : α), hi ≤ i → xs[i]? = some x → position x = .gt)
    (hnone : locateBetween? position xs lo hi bound = none) :
    ∀ (i : Nat) (x : α), xs[i]? = some x → position x ≠ .eq := by
  fun_induction locateBetween? position xs lo hi bound with
  | case1 lo hi bound nonempty mid inside here => cases hnone
  | case2 lo hi bound nonempty mid inside before ih =>
    refine ih ?_ hhi hnone
    intro i x hi hx
    have hmid : xs[mid]? = some xs[mid] := Array.getElem?_eq_getElem inside
    have hlt := hordered.before i mid x xs[mid] (by omega) hx hmid
    simpa [before] using hlt
  | case3 lo hi bound nonempty mid inside behind ih =>
    refine ih hlo ?_ hnone
    intro i x hi hx
    have hmid : xs[mid]? = some xs[mid] := Array.getElem?_eq_getElem inside
    have hgt := hordered.notBehind mid i xs[mid] x hi hmid hx
    simpa [behind] using hgt
  | case4 lo hi bound closed =>
    intro i x hx
    rcases Nat.lt_or_ge i lo with hi | hi
    · simp [hlo i x hi hx]
    · simp [hhi i x (by omega) hx]

/-- The search reports an element in place wherever there is one.  Which one is left open. -/
def Locates (search : (α → Ordering) → Array α → Option Nat) : Prop :=
  ∀ (position : α → Ordering) (xs : Array α), IsOrdered position xs →
    (∀ i, search position xs = some i → ∃ x, xs[i]? = some x ∧ position x = .eq) ∧
      (search position xs = none → ∀ x ∈ xs, position x ≠ .eq)

theorem locates_locate? : Locates (@locate? α) := by
  intro position xs hordered
  constructor
  · intro i h
    obtain ⟨inside, heq⟩ := position_of_locate? h
    exact ⟨xs[i], Array.getElem?_eq_getElem inside, heq⟩
  · intro h x hx
    obtain ⟨i, hi⟩ := Array.mem_iff_getElem?.1 hx
    refine position_ne_eq_of_locateBetween? hordered ?_ ?_ h i x hi
    · intro i x hi
      omega
    · intro i x hi hx
      rw [Array.getElem?_eq_none hi] at hx
      cases hx

end ByteCensus.Search
