import OperatingSystems.Dsm.Node
import OperatingSystems.Dsm.PageLoop

/-!
# Requests for any page number

The loops of `printPageContents` and `updatePageContents` pass their counter on to
`communicateWithPeer`. The text of a request has the minus sign between the page and
the operation, and the sign of a negative page is another one: `strtok` skips it, so
that the peer takes the request for one of the opposite page. `atoi` converts what
it has read to an `int`, and the least `int` is its own opposite there.
-/
namespace OperatingSystems.Dsm
open Library

/-- The two `int` values that the responder obtains from a request. -/
def receivedRequest (buffer : List UInt8) : Option (ℤ × ℤ) :=
  (decodeRequest buffer).map fun request => (toInt request.1, toInt request.2)

namespace Region

/-- The counters of the loops over the pages, in the first `fuel` turns. -/
def passedOn (r : Region) (requestPage : ℤ) (fuel : ℕ) : List ℤ :=
  turns (fun i => UInt64.ofInt i ≤ r.lastPage requestPage) (fun i => toInt (i + 1)) fuel
    (firstPage requestPage)

/-- The peer obtains every request of a command as it was encoded. -/
def RequestsDecoded (r : Region) (requestPage : ℤ) : Prop :=
  ∀ fuel, ∀ page ∈ r.passedOn requestPage fuel, ∀ operation ∈ [readOp, invalidateOp],
    receivedRequest (requestText page operation).bytes = some (page, operation)

end Region

theorem decodeRequest_of_neg {page operation : ℤ} (hp : page < 0) (hop : 0 ≤ operation) :
    decodeRequest (requestText page operation).bytes = some (-page, operation) := by
  have hopposite : 0 ≤ -page := by omega
  have htext : (requestText page operation).bytes =
      45 :: (requestText (-page) operation).bytes := by
    simp only [requestText, decimal, if_pos hp, if_neg (show ¬ -page < 0 by omega),
      Int.natAbs_neg, List.cons_append]
  rw [← decodeRequest_requestText hopposite hop]
  unfold decodeRequest
  rw [htext, strtok_cons_delim]

theorem decodeRequest_eq {page operation : ℤ} (hop : 0 ≤ operation) :
    decodeRequest (requestText page operation).bytes = some ((page.natAbs : ℤ), operation) := by
  by_cases hp : 0 ≤ page
  · rw [decodeRequest_requestText hp hop, Int.natAbs_of_nonneg hp]
  · rw [decodeRequest_of_neg (by omega) hop]
    congr 2
    omega

theorem receivedRequest_eq {page operation : ℤ} (hop : operation ∈ [readOp, invalidateOp]) :
    receivedRequest (requestText page operation).bytes =
      some (toInt page.natAbs, operation) := by
  have hsmall : 0 ≤ operation ∧ toInt operation = operation := by
    rcases List.mem_pair.mp hop with rfl | rfl <;> decide
  rw [receivedRequest, decodeRequest_eq hsmall.1, Option.map_some, hsmall.2]

/-- A counter that passes the greatest `int` goes on from the least. -/
theorem toInt_natCast_cases {m : ℕ} (h : m < 2 ^ 32) :
    (m < 2 ^ 31 ∧ toInt m = m) ∨ (2 ^ 31 ≤ m ∧ toInt m = m - 2 ^ 32) := by
  by_cases hm : m < 2 ^ 31
  · exact .inl ⟨hm, toInt_eq (by omega) (by omega)⟩
  · right
    refine ⟨by omega, ?_⟩
    have hwrap : toInt (m - 2 ^ 32) = toInt m := Int.sub_bmod_right _ _
    rw [← hwrap]
    exact toInt_eq (by omega) (by omega)

/-- An `int` is its absolute value, read as an `int`, if it is not negative or the least. -/
theorem toInt_natAbs_iff {page : ℤ} (hlo : -2 ^ 31 ≤ page) (hhi : page < 2 ^ 31) :
    toInt page.natAbs = page ↔ 0 ≤ page ∨ page = -2 ^ 31 := by
  by_cases hp : 0 ≤ page
  · rw [Int.natAbs_of_nonneg hp, toInt_eq hlo hhi]
    simp [hp]
  · by_cases hmin : page = -2 ^ 31
    · subst hmin
      decide
    · rw [toInt_eq (by omega) (by omega)]
      omega

theorem receivedRequest_iff {page : ℤ} (hlo : -2 ^ 31 ≤ page) (hhi : page < 2 ^ 31)
    {operation : ℤ} (hop : operation ∈ [readOp, invalidateOp]) :
    receivedRequest (requestText page operation).bytes = some (page, operation) ↔
      0 ≤ page ∨ page = -2 ^ 31 := by
  rw [receivedRequest_eq hop, ← toInt_natAbs_iff hlo hhi, Option.some.injEq, Prod.mk.injEq]
  exact and_iff_left rfl

namespace Region
variable {r : Region} {p : ℤ}

theorem passedOn_int (hlo : -2 ^ 31 ≤ p) (hhi : p < 2 ^ 31) {fuel : ℕ} {page : ℤ}
    (hm : page ∈ r.passedOn p fuel) : -2 ^ 31 ≤ page ∧ page < 2 ^ 31 := by
  have hfirst : -2 ^ 31 ≤ firstPage p ∧ firstPage p < 2 ^ 31 := by
    unfold firstPage
    split_ifs <;> omega
  exact (turns_invariant (P := fun page => -2 ^ 31 ≤ page ∧ page < 2 ^ 31) hfirst
    (fun j _ _ => toInt_lt (j + 1)) hm).1

theorem requestsDecoded_iff_passedOn (hlo : -2 ^ 31 ≤ p) (hhi : p < 2 ^ 31) :
    r.RequestsDecoded p ↔
      ∀ fuel, ∀ page ∈ r.passedOn p fuel, 0 ≤ page ∨ page = -2 ^ 31 := by
  apply forall_congr'
  intro fuel
  apply forall₂_congr
  intro page hm
  obtain ⟨hge, hlt⟩ := passedOn_int hlo hhi hm
  constructor
  · intro h
    have hread := h readOp (List.mem_cons_self ..)
    exact (receivedRequest_iff hge hlt (List.mem_cons_self ..)).mp hread
  · intro h operation hop
    exact (receivedRequest_iff hge hlt hop).mpr h

/-- For a typed page the loop makes one turn, also for a negative one. -/
theorem passedOn_page (hlo : -2 ^ 31 ≤ p) (hhi : p < 2 ^ 31) (hne : p ≠ -1) (fuel : ℕ) :
    r.passedOn p (fuel + 1) = [p] := by
  have hfirst : firstPage p = p := if_neg hne
  have hlast : r.lastPage p = UInt64.ofInt p := if_neg hne
  have hstop : ¬ UInt64.ofInt (toInt (p + 1)) ≤ UInt64.ofInt p := by
    rw [UInt64.le_iff_toNat_le, ofInt_toNat, ofInt_toNat]
    by_cases hmax : p = 2 ^ 31 - 1
    · subst hmax
      decide
    · rw [toInt_eq (by omega) (by omega)]
      omega
  have hrest : ∀ fuel, turns (fun i => decide (UInt64.ofInt i ≤ UInt64.ofInt p))
      (fun i => toInt (i + 1)) fuel (toInt (p + 1)) = [] := by
    intro fuel
    cases fuel with
    | zero => rfl
    | succ fuel => rw [turns, if_neg (by simpa using hstop)]
  rw [passedOn, hfirst, hlast, turns, if_pos (by simp), hrest]

/-- Behind the greatest `int` the counter is negative, and then above the bound of the loop
unless that is one of the last unsigned values. -/
theorem passedOn_all :
    (∀ fuel, ∀ page ∈ r.passedOn (-1) fuel, 0 ≤ page ∨ page = -2 ^ 31) ↔
      (r.lastPage (-1)).toNat ≤ 2 ^ 64 - 2 ^ 31 := by
  constructor
  · intro h
    by_contra hlarge
    have hmem : (fun i => toInt (i + 1))^[2 ^ 31 + 1] 0 ∈ r.passedOn (-1) (2 ^ 31 + 1 + 1) := by
      apply mem_turns_iterate
      intro m hm
      have hfirst : firstPage (-1) = 0 := rfl
      rw [hfirst, iterate_toInt, decide_eq_true_iff, UInt64.le_iff_toNat_le, ofInt_toNat]
      have hcounter := toInt_natCast_cases (m := m) (by omega)
      omega
    rw [iterate_toInt] at hmem
    exact absurd (h _ _ hmem) (by decide)
  · intro hl fuel page hm
    obtain ⟨hpage, hgo⟩ := turns_invariant
      (P := fun page => (0 ≤ page ∨ page ≤ -2 ^ 31 + 1) ∧ -2 ^ 31 ≤ page ∧ page < 2 ^ 31)
      (by simp [firstPage])
      (fun j hj hgo => by
        refine ⟨?_, toInt_lt (j + 1)⟩
        rw [decide_eq_true_iff, UInt64.le_iff_toNat_le, ofInt_toNat] at hgo
        by_cases hmax : j = 2 ^ 31 - 1
        · subst hmax
          decide
        · rw [toInt_eq (by omega) (by omega)]
          omega) hm
    rw [decide_eq_true_iff, UInt64.le_iff_toNat_le, ofInt_toNat] at hgo
    omega

/-- The peer obtains the encoded requests exactly if the typed page is not negative or the
least `int`, or all pages are asked for and their counter stays out of the other negative
numbers. -/
theorem requests_decoded_iff (r : Region) {p : ℤ} (hlo : -2 ^ 31 ≤ p) (hhi : p < 2 ^ 31) :
    r.RequestsDecoded p ↔
      if p = -1 then (r.lastPage p).toNat ≤ 2 ^ 64 - 2 ^ 31 else 0 ≤ p ∨ p = -2 ^ 31 := by
  rw [requestsDecoded_iff_passedOn hlo hhi]
  split_ifs with hall
  · subst hall
    exact passedOn_all
  · constructor
    · intro h
      exact h 1 p (by rw [passedOn_page hlo hhi hall]; exact List.mem_cons_self ..)
    · intro h fuel page hm
      cases fuel with
      | zero => cases hm
      | succ fuel =>
          rw [passedOn_page hlo hhi hall, List.mem_singleton] at hm
          rwa [hm]

theorem requests_decoded_iff_twoPages : twoPages.RequestsDecoded (-1) ↔
    if (-1 : ℤ) = -1 then (twoPages.lastPage (-1)).toNat ≤ 2 ^ 64 - 2 ^ 31
      else 0 ≤ (-1 : ℤ) ∨ (-1 : ℤ) = -2 ^ 31 :=
  requests_decoded_iff twoPages.toRegion (by decide) (by decide)

/-- A read of page -5 is passed on and answered as a read of page 5. -/
theorem negativePage_altered :
    receivedRequest (requestText (-5) readOp).bytes = some (5, readOp) ∧
      ¬ twoPages.RequestsDecoded (-5) := by
  have hreceived : receivedRequest (requestText (-5) readOp).bytes = some (5, readOp) := by
    decide +kernel
  refine ⟨hreceived, fun h => ?_⟩
  have hpage := h 1 (-5) (by decide) readOp (by decide)
  rw [hreceived] at hpage
  exact absurd hpage (by decide)

end Region

end OperatingSystems.Dsm
