import ImplicitTiling.Loader.Basic
import Mathlib

/-!
# The order of priorities

Numbers in floating point, unless they are no numbers, are ordered as their ranks are: triples of
integers in lexicographic order (`lt_iff_rankOf`). So the worker sorts its queue by a linear order.
What it starts has the highest rank (`rank_le_of_mergeSort`), and the requests of one rank stay in
their order (`filter_mergeSort`).
-/

namespace ImplicitTiling

open Float.Model (UnpackedFloat)

/-! ## Ranks -/

/-- The place of a number in the order of all numbers: by its kind, then by its exponent, then by its
mantissa, the other way round if it is negative. Both zeros have the same place. -/
def rankOf : UnpackedFloat → ℤ ×ₗ ℤ ×ₗ ℤ
  | .notANumber => toLex (0, toLex (0, 0))
  | .infinity .negative => toLex (-2, toLex (0, 0))
  | .finite .negative mantissa exponent _ => toLex (-1, toLex (-exponent, -mantissa))
  | .zero _ => toLex (0, toLex (0, 0))
  | .finite .positive mantissa exponent _ => toLex (1, toLex (exponent, mantissa))
  | .infinity .positive => toLex (2, toLex (0, 0))

theorem then_compare_eq_lt {e e' : ℤ} {m m' : ℕ} :
    (compare e e').then (compare m m') = .lt ↔ e < e' ∨ e = e' ∧ m < m' := by
  rw [Ordering.then_eq_lt, Int.compare_eq_lt, Nat.compare_eq_lt, compare_eq_iff_eq]

theorem then_compare_eq_gt {e e' : ℤ} {m m' : ℕ} :
    (compare e e').then (compare m m') = .gt ↔ e' < e ∨ e = e' ∧ m' < m := by
  rw [Ordering.then_eq_gt, Int.compare_eq_gt, Nat.compare_eq_gt, compare_eq_iff_eq]

section

variable {a b : UnpackedFloat} (ha : a.isNaN = false) (hb : b.isNaN = false)

include ha hb

theorem lt_iff_rankOf : a.lt b = true ↔ rankOf a < rankOf b := by
  rcases a with (_ | _) | _ | (_ | _) | ⟨_ | _, m, e, _⟩ <;>
    rcases b with (_ | _) | _ | (_ | _) | ⟨_ | _, m', e', _⟩ <;>
    simp_all [UnpackedFloat.isNaN, UnpackedFloat.lt, UnpackedFloat.compare, rankOf,
      Prod.Lex.toLex_lt_toLex, then_compare_eq_lt, then_compare_eq_gt]
  rfl

theorem beq_iff_rankOf : a.beq b = true ↔ rankOf a = rankOf b := by
  rcases a with (_ | _) | _ | (_ | _) | ⟨_ | _, m, e, _⟩ <;>
    rcases b with (_ | _) | _ | (_ | _) | ⟨_ | _, m', e', _⟩ <;>
    simp_all [UnpackedFloat.isNaN, UnpackedFloat.beq, UnpackedFloat.compare, rankOf,
      Ordering.then_eq_eq]
  · rfl
  · rfl

end

/-- The place of a request in the order of priority. -/
def LoadRequest.rank (r : LoadRequest) : ℤ ×ₗ ℤ ×ₗ ℤ :=
  rankOf r.priority.toModel.unpack

/-- The priority of a request is a number. -/
def LoadRequest.IsRanked (r : LoadRequest) : Prop :=
  r.priority.isNaN = false

namespace LoadRequest

variable {r r' : LoadRequest}

theorem lt_iff_rank (h : r.IsRanked) (h' : r'.IsRanked) :
    r.priority < r'.priority ↔ r.rank < r'.rank :=
  decide_eq_true_iff.trans (lt_iff_rankOf h h')

theorem beq_iff_rank (h : r.IsRanked) (h' : r'.IsRanked) :
    (r.priority == r'.priority) = true ↔ r.rank = r'.rank :=
  beq_iff_rankOf h h'

theorem comesFirst_eq (h : r.IsRanked) (h' : r'.IsRanked) :
    Loader.comesFirst r r' = decide (r'.rank ≤ r.rank) := by
  unfold Loader.comesFirst
  rw [← decide_not]
  exact decide_eq_decide.2 ((not_congr (lt_iff_rank h h')).trans not_lt)

end LoadRequest

/-! ## Sorting -/

section

variable {α β : Type} [LinearOrder β] (f : α → β) (xs : List α)

theorem pairwise_mergeSort_ge :
    (xs.mergeSort fun a b => decide (f b ≤ f a)).Pairwise fun a b => f b ≤ f a := by
  simpa using @List.pairwise_mergeSort α (fun a b => decide (f b ≤ f a))
    (by simpa using fun a b c hab hbc => hbc.trans hab)
    (by simpa using fun a b => le_total (f b) (f a)) xs

/-- Sorting keeps those with the same value in their order. -/
theorem filter_mergeSort_ge (k : β) :
    (xs.mergeSort fun a b => decide (f b ≤ f a)).filter (f · = k) = xs.filter (f · = k) := by
  have hequal : (xs.filter (f · = k)).Pairwise fun a b => decide (f b ≤ f a) = true := by
    refine List.pairwise_of_forall_mem_list fun a ha b hb => ?_
    rw [of_decide_eq_true (List.mem_filter.1 ha).2, of_decide_eq_true (List.mem_filter.1 hb).2]
    simp
  have hsub := (List.sublist_mergeSort (by simpa using fun a b c hab hbc => hbc.trans hab)
    (by simpa using fun a b => le_total (f b) (f a)) hequal List.filter_sublist).filter (f · = k)
  rw [List.filter_filter] at hsub
  simp only [Bool.and_self] at hsub
  exact (hsub.eq_of_length ((List.mergeSort_perm xs _).filter _).length_eq.symm).symm

end

section

variable {queue rest : List LoadRequest} {r q : LoadRequest} (hqueue : ∀ r ∈ queue, r.IsRanked)

include hqueue

theorem mergeSort_eq :
    queue.mergeSort Loader.comesFirst = queue.mergeSort fun r r' => decide (r'.rank ≤ r.rank) := by
  have hsort := List.map_mergeSort (f := id) (s := fun r r' => decide (LoadRequest.rank r' ≤ r.rank))
    fun r hr r' hr' => LoadRequest.comesFirst_eq (hqueue r hr) (hqueue r' hr')
  rwa [List.map_id, List.map_id] at hsort

/-- The first request has the highest rank. -/
theorem rank_le_of_mergeSort (h : queue.mergeSort Loader.comesFirst = r :: rest) (hq : q ∈ rest) :
    q.rank ≤ r.rank := by
  have hsorted := pairwise_mergeSort_ge LoadRequest.rank queue
  rw [← mergeSort_eq hqueue, h] at hsorted
  exact List.rel_of_pairwise_cons hsorted hq

/-- The requests of one rank stay in their order. -/
theorem filter_mergeSort (h : queue.mergeSort Loader.comesFirst = r :: rest)
    (k : ℤ ×ₗ ℤ ×ₗ ℤ) : (r :: rest).filter (·.rank = k) = queue.filter (·.rank = k) := by
  rw [← h, mergeSort_eq hqueue]
  exact filter_mergeSort_ge LoadRequest.rank queue k

end

end ImplicitTiling
