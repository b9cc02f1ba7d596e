import Gateon.Go.Time
import Mathlib.Algebra.Order.Ring.Int

namespace Gateon.TraceBudget
open Go

-- time.Time.Sub is held to 64 bits.
def sub (t u : Int) : Int := max (-2^63) (min (2^63-1) (t-u))
def midpoint (lo hi : Int) : Int := lo + (sub hi lo).tdiv 2

theorem midpoint_between (apart : millisecond < sub hi lo) : lo < midpoint lo hi ∧ midpoint lo hi < hi := by
  have halved : (sub hi lo).tdiv 2 = sub hi lo / 2 := Int.tdiv_eq_ediv_of_nonneg (by unfold millisecond at apart; omega)
  unfold midpoint
  rw [halved]
  unfold sub millisecond at *
  omega

variable (need : Nat) (below : Int → Nat)

def bisect (lo hi : Int) : Int :=
  if _apart : millisecond < sub hi lo then
    if need ≤ below (midpoint lo hi) then bisect lo (midpoint lo hi) else bisect (midpoint lo hi) hi
  else hi
termination_by (hi-lo).toNat
decreasing_by
  all_goals
    have inside := midpoint_between _apart
    omega

def findCutoff (oldest newest : Int) : Int := bisect need below oldest newest

-- What the loop keeps of its interval.
structure Bracket (oldest newest lo hi : Int) : Prop where
  low : oldest ≤ lo
  order : lo ≤ hi
  high : hi ≤ newest
  enough : need ≤ below hi ∨ hi = newest
  short : below lo < need ∨ lo = oldest

variable {need below}

theorem bisect_bracket (h : Bracket need below oldest newest lo hi) :
    ∃ last, Bracket need below oldest newest last (bisect need below lo hi) ∧ bisect need below lo hi - last ≤ millisecond := by
  fun_induction bisect need below lo hi with
  | case1 lo hi apart reached ih =>
    obtain ⟨after,before⟩ := midpoint_between apart
    exact ih {h with order := Int.le_of_lt after,high := Int.le_trans (Int.le_of_lt before) h.high,enough := .inl reached}
  | case2 lo hi apart missed ih =>
    obtain ⟨after,before⟩ := midpoint_between apart
    exact ih {h with low := Int.le_trans h.low (Int.le_of_lt after),order := Int.le_of_lt before,short := .inl (Nat.lt_of_not_le missed)}
  | case3 lo hi near =>
    refine ⟨lo,h,?_⟩
    unfold sub millisecond at *
    omega

theorem findCutoff_brackets (need : Nat) (below : Int → Nat) (oldest newest : Int) (order : oldest ≤ newest) :
    let c := findCutoff need below oldest newest
    (oldest ≤ c ∧ c ≤ newest) ∧ (need ≤ below c ∨ c = newest) ∧
      (c - oldest ≤ millisecond ∨ ∃ t, t ≤ c ∧ c - t ≤ millisecond ∧ below t < need) := by
  have whole : Bracket need below oldest newest oldest newest := ⟨Int.le_refl _,order,Int.le_refl _,.inr rfl,.inr rfl⟩
  obtain ⟨last,h,near⟩ := bisect_bracket whole
  refine ⟨⟨Int.le_trans h.low h.order,h.high⟩,h.enough,?_⟩
  rcases h.short with missed | first
  · exact .inr ⟨last,h.order,near,missed⟩
  · exact .inl (first ▸ near)

theorem findCutoff_brackets_hour :
    let c := findCutoff 10 Int.toNat 0 (3600*10^9)
    (0 ≤ c ∧ c ≤ 3600*10^9) ∧ (10 ≤ c.toNat ∨ c = 3600*10^9) := by
  obtain ⟨within,enough,_⟩ := findCutoff_brackets 10 Int.toNat 0 (3600*10^9) (by decide)
  exact ⟨within,enough⟩

end Gateon.TraceBudget
