import OperatingSystems.Dsm.Accesses
import OperatingSystems.Dsm.ExclusiveWriter
import OperatingSystems.Dsm.LocalStore

/-!
# When every access is in range

`msi_array` has 100 entries, and the loop of `fillWithInvalid` has one turn more than
the region has pages. The page number typed at the prompt is never checked, and the length
of a message only after it was stored in an array of the size of a page. In a run within
these limits every page holds a text with its NUL, so that no text read leaves its page.
-/
namespace OperatingSystems.Dsm
open Library

def Access.InRange (r : Region) : Access → Prop
  | .index j => 0 ≤ j ∧ j < 100
  | .bytes offset count => 0 ≤ offset ∧ offset + count ≤ r.len
  | .message count => count ≤ r.pageSize
  | .pageOutput count => count ≤ r.pageSize + 1

section Limits
variable (r : Region)

/-- A page of the region is typed, or all, and a message shorter than a page. -/
def Action.Fits : Action → Prop
  | .start _ c => r.Fits c
  | _ => True

/-- The indices of both loops over the array, and the accesses of every step of a run. -/
def AllInRange (acts : List Action) : Prop :=
  (∀ fuel, ∀ j ∈ fillIndices r fuel, 0 ≤ j ∧ j < 100) ∧
    (∀ fuel, ∀ j ∈ printMsiIndices r fuel, 0 ≤ j ∧ j < 100) ∧
    ∀ before a, before ++ [a] <+: acts → ∀ s, runActions (step r) (startSys r) before = some s →
      ∀ x ∈ accesses r s a, x.InRange r

end Limits

section Loops
variable {r : Region}

theorem iterate_next {m : ℕ} (hm : m < 2 ^ 31) : (fun j => toInt (j + 1))^[m] 0 = m := by
  rw [iterate_toInt, toInt_eq (by omega) (by omega)]

theorem fillIndices_inRange_iff (h64 : r.numPages < 2 ^ 64) :
    (∀ fuel, ∀ j ∈ fillIndices r fuel, 0 ≤ j ∧ j < 100) ↔ r.numPages ≤ 99 := by
  constructor
  · intro h
    by_contra hbig
    have hmem : (fun j => toInt (j + 1))^[100] 0 ∈ fillIndices r 101 := by
      apply mem_turns_iterate
      intro m hm
      rw [iterate_next (by omega), decide_eq_true_iff, UInt64.le_iff_toNat_le, ofInt_toNat,
        UInt64.toNat_ofNat']
      omega
    rw [iterate_next (by norm_num)] at hmem
    exact absurd (h 101 _ hmem).2 (by norm_num)
  · intro hn fuel j hj
    have hbound : ∀ j, 0 ≤ j ∧ j ≤ 100 → UInt64.ofInt j ≤ UInt64.ofNat r.numPages → j ≤ 99 := by
      intro j h₀ hle
      rw [UInt64.le_iff_toNat_le, ofInt_toNat, UInt64.toNat_ofNat'] at hle
      omega
    obtain ⟨h₀, hle⟩ := turns_invariant (P := fun j => 0 ≤ j ∧ j ≤ 100) (by omega)
      (fun j hj hgo => by
        have hlt := hbound j hj (of_decide_eq_true hgo)
        rw [toInt_eq (by omega) (by omega)]
        omega) hj
    have hlt := hbound j h₀ (of_decide_eq_true hle)
    omega

theorem printMsiIndices_inRange (hn : r.numPages ≤ 99) (fuel : ℕ) :
    ∀ j ∈ printMsiIndices r fuel, 0 ≤ j ∧ j < 100 := by
  intro j hj
  have hbound : ∀ j, 0 ≤ j ∧ j ≤ 99 → UInt64.ofInt j < UInt64.ofNat r.numPages → j < 99 := by
    intro j h₀ hlt
    rw [UInt64.lt_iff_toNat_lt, ofInt_toNat, UInt64.toNat_ofNat'] at hlt
    omega
  obtain ⟨h₀, -⟩ := turns_invariant (P := fun j => 0 ≤ j ∧ j ≤ 99) (by omega)
    (fun j hj hgo => by
      have hlt := hbound j hj (of_decide_eq_true hgo)
      rw [toInt_eq (by omega) (by omega)]
      omega) hj
  omega

end Loops

/-- Every page holds a text with its NUL. -/
def HoldsTexts (r : Region) (mem : ℤ → UInt8) : Prop :=
  ∀ j, r.IsPage j → ∃ text, r.Holds mem j text

/-- No text in the pages, on its way or still to be written is longer than a page. -/
structure Contained (r : Region) (s : Sys) : Prop where
  protocol : ExclusiveWriter.Inv r s
  threads : ∀ n, (s n).thread.Ok r fun _ m => m.strlen < r.pageSize
  texts : ∀ n, HoldsTexts r (s n).node.mem
  replies : ∀ n, ∀ reply ∈ (s n).replies, reply.text.strlen < r.pageSize

section Nodes
variable {r : Region} {mem : ℤ → UInt8} {message : CString} {j : ℤ}

theorem HoldsTexts.copyMessage (h : HoldsTexts r mem) (ha : r.Addressable) (hj : r.IsPage j)
    (hm : message.strlen < r.pageSize) : HoldsTexts r (r.copyMessage message mem j) := by
  intro k hk
  by_cases hjk : j = k
  · subst hjk
    exact ⟨message, Region.holds_copyMessage hm mem j⟩
  · obtain ⟨text, ht⟩ := h k hk
    exact ⟨text, ht.congr (Region.samePage_copyMessage ha hj hk hjk hm mem)⟩

theorem HoldsTexts.dontNeed (h : HoldsTexts r mem) (ha : r.Addressable) (hj : r.IsPage j) :
    HoldsTexts r (r.dontNeed mem j) := by
  intro k hk
  by_cases hjk : j = k
  · subst hjk
    exact ⟨CString.empty, (Region.blank_dontNeed mem j).holds ha.pageSize_pos⟩
  · obtain ⟨text, ht⟩ := h k hk
    exact ⟨text, ht.congr (Region.samePage_dontNeed ha hj hk hjk mem)⟩

theorem HoldsTexts.storeReply {node : Node} (h : HoldsTexts r node.mem) (ha : r.Addressable)
    (hj : r.IsPage j) (hm : message.strlen < r.pageSize) :
    HoldsTexts r (storeReply r node j message).mem := by
  unfold Dsm.storeReply
  split_ifs
  · rw [Region.updatePageContents_of_isPage hj]
    exact h.copyMessage ha hj hm
  · exact h.dontNeed ha hj

theorem Resumed.holdsTexts {e e' : Endpoint} {todo : List ℤ} (ha : r.Addressable)
    (he : Resumed r (fun _ m => m.strlen < r.pageSize) e todo e') (h : HoldsTexts r e.node.mem) :
    HoldsTexts r e'.node.mem := by
  cases he with
  | finished out => exact h
  | fetching out j js hi hok => exact h
  | storing out i is p m hok =>
      obtain ⟨hi, hm⟩ := hok.1 i (by simp)
      exact h.copyMessage ha hi hm

/-- A reply is cut by `snprintf`. -/
theorem responder_contained (ha : r.Addressable) {node node' : Node} {text : CString} {op : ℤ}
    (hj : r.IsPage j) (hop : op = readOp ∨ op = invalidateOp)
    (h : node.responder r (requestText j op) = some (node', text)) (ht : HoldsTexts r node.mem) :
    HoldsTexts r node'.mem ∧ text.strlen < r.pageSize := by
  have hcut : ∀ m : CString, (m.take (r.pageSize - 1)).strlen < r.pageSize := by
    intro m
    have hpos := ha.pageSize_pos
    have hle : (m.take (r.pageSize - 1)).strlen ≤ r.pageSize - 1 := List.length_take_le _ _
    omega
  rw [responder_requestText r _ hj.1 (by rcases hop with rfl | rfl <;> decide)] at h
  rcases hop with rfl | rfl
  · rw [if_neg (by decide), if_pos rfl, getResponse_transition] at h
    obtain ⟨rfl, rfl⟩ := Prod.mk.inj (Option.some.inj h)
    refine ⟨?_, hcut _⟩
    split_ifs
    · exact ht
    · exact ht
  · rw [if_pos rfl] at h
    obtain ⟨rfl, rfl⟩ := Prod.mk.inj (Option.some.inj h)
    exact ⟨ht.dontNeed ha hj, hcut _⟩

end Nodes

section Steps
variable {r : Region} {s t : Sys}

/-- A command goes on from a node whose pages hold texts. -/
theorem Contained.resumed (ha : r.Addressable) (h : Contained r s) {n : Side} {e e' : Endpoint}
    {todo : List ℤ} (he : Resumed r (fun _ m => m.strlen < r.pageSize) e todo e')
    (ht : HoldsTexts r e.node.mem) (hr : ∀ reply ∈ e.replies, reply ∈ (s n).replies)
    (hp : ExclusiveWriter.Inv r (Function.update s n e')) :
    Contained r (Function.update s n e') where
  protocol := hp
  threads := (Function.forall_update_iff s fun _ e =>
      e.thread.Ok r fun _ m => m.strlen < r.pageSize).mpr ⟨he.thread, fun k _ => h.threads k⟩
  texts := (Function.forall_update_iff s fun _ e => HoldsTexts r e.node.mem).mpr
    ⟨he.holdsTexts ha ht, fun k _ => h.texts k⟩
  replies := (Function.forall_update_iff s fun _ e => ∀ reply ∈ e.replies,
      reply.text.strlen < r.pageSize).mpr
    ⟨fun reply hm => h.replies n reply (hr reply (he.replies ▸ hm)), fun k _ => h.replies k⟩

theorem Action.Fits.pagesOk {a : Action} (h : a.Fits r) : a.PagesOk r := by
  cases a with
  | start n c =>
      cases c with
      | read p => exact h
      | write p message => exact h.1
  | deliver n => trivial
  | respond n => trivial

theorem Contained.step (ha : r.Addressable) (h : Contained r s) {a : Action} (hfits : a.Fits r)
    (hs : Dsm.step r s a = some t) : Contained r t := by
  have hp := h.protocol.step hfits.pagesOk hs
  cases a with
  | start n c =>
      obtain ⟨-, rfl⟩ := step_start hs
      have he : Resumed r (fun _ m => m.strlen < r.pageSize) (s n) (c.written r)
          (startCommand r (s n) c) := by
        apply resumed_startCommand hfits.pagesOk
        rintro p message rfl k -
        exact hfits.2
      exact h.resumed ha he (h.texts n) (fun _ hr => hr) hp
  | deliver n =>
      obtain ⟨reply, replies, e', hr, he, rfl⟩ := step_deliver hs
      have hm := h.replies n reply (by simp [hr])
      have hsub : ∀ x ∈ replies, x ∈ (s n).replies := fun x hx => by simp [hr, hx]
      have hok := h.threads n
      rcases receive_cases (e := { s n with replies := replies }) hok he with
        ⟨j, js, hthread, hres⟩ | ⟨i, is, p, m, -, hres⟩
      · rw [hthread] at hok
        exact h.resumed ha hres ((h.texts n).storeReply ha (hok j (by simp)) hm) hsub hp
      · exact h.resumed ha hres (h.texts n) hsub hp
  | respond n =>
      obtain ⟨request, requests, node, text, hreq, hresp, hn, ho⟩ := step_respond hs
      obtain ⟨j, op, hj, hop, rfl⟩ := h.protocol.requests n.other request (by simp [hreq])
      obtain ⟨htexts, hm⟩ := responder_contained ha hj hop hresp (h.texts n)
      refine ⟨hp, (Side.forall_iff n).mpr ⟨?_, ?_⟩, (Side.forall_iff n).mpr ⟨?_, ?_⟩,
        (Side.forall_iff n).mpr ⟨?_, ?_⟩⟩
      · rw [hn]
        exact h.threads n
      · rw [ho]
        exact h.threads n.other
      · rw [hn]
        exact htexts
      · rw [ho]
        exact h.texts n.other
      · rw [hn]
        exact h.replies n
      · rw [ho]
        intro reply hr
        rcases List.mem_append.mp hr with hr | hr
        · exact h.replies n.other reply hr
        · unfold sendReply at hr
          split_ifs at hr
          · cases hr
          · rw [List.mem_singleton.mp hr]
            exact hm

theorem contained_start (ha : r.Addressable) : Contained r (startSys r) where
  protocol := ExclusiveWriter.inv_start r
  threads _ := trivial
  texts _ _ _ := ⟨CString.empty, Region.Blank.holds (fun _ _ => rfl) ha.pageSize_pos⟩
  replies _ _ hr := absurd hr List.not_mem_nil

end Steps

section Local
variable {r : Region} {mem : ℤ → UInt8} {message : CString} {j : ℤ}

theorem index_inRange (hn : r.numPages ≤ 99) (hj : r.IsPage j) : (Access.index j).InRange r := by
  obtain ⟨h₀, hlt⟩ := hj
  exact ⟨h₀, by omega⟩

theorem textAccess_inRange (ha : r.Addressable) (ht : HoldsTexts r mem) (hj : r.IsPage j) :
    (textAccess r mem j).InRange r ∧ (outputAccess (r.pageText mem j)).InRange r := by
  obtain ⟨text, hheld⟩ := ht j hj
  have hfit := hheld.1
  have hend := Region.page_end_le hj
  have hoff := Region.pageOffset_eq ha hj
  rw [textAccess, outputAccess, Region.pageText_eq ha hj hheld]
  refine ⟨⟨by omega, ?_⟩, ?_⟩
  · push_cast
    omega
  · exact Nat.le_succ_of_le hfit

theorem outputAccess_inRange (hfit : message.strlen < r.pageSize) :
    (outputAccess message).InRange r :=
  Nat.le_succ_of_le hfit

theorem copyAccess_inRange (ha : r.Addressable) (hj : r.IsPage j)
    (hfit : message.strlen < r.pageSize) : (copyAccess r message j).InRange r := by
  have hend := Region.page_end_le hj
  have hoff := Region.pageOffset_eq ha hj
  refine ⟨by omega, ?_⟩
  push_cast
  omega

theorem dropAccess_inRange (ha : r.Addressable) (hj : r.IsPage j) :
    (dropAccess r j).InRange r := by
  have hend := Region.page_end_le hj
  have hoff := Region.pageOffset_eq ha hj
  exact ⟨by omega, by omega⟩

variable (ha : r.Addressable) (hn : r.numPages ≤ 99) {node : Node} (ht : HoldsTexts r node.mem)
include ha hn ht

theorem printAccesses_inRange (fetch : Bool) {js : List ℤ} (hjs : ∀ j ∈ js, r.IsPage j) :
    ∀ x ∈ printAccesses r fetch node js, x.InRange r := by
  induction js with
  | nil => exact fun x hx => absurd hx List.not_mem_nil
  | cons j js ih =>
      have hj := hjs j (by simp)
      have hrest := ih fun k hk => hjs k (by simp [hk])
      have hempty : (outputAccess CString.empty).InRange r :=
        outputAccess_inRange ha.pageSize_pos
      obtain ⟨htext, hout⟩ := textAccess_inRange ha ht hj
      simp only [printAccesses, List.forall_mem_cons]
      refine ⟨htext, hout, index_inRange hn hj, ?_⟩
      cases node.msiArray j with
      | m => exact hrest
      | s => exact hrest
      | i =>
          cases fetch with
          | true => exact fun x hx => absurd hx List.not_mem_nil
          | false =>
              exact List.forall_mem_cons.mpr ⟨hempty, hrest⟩

theorem updateAccesses_inRange {p : ℤ} (hp : r.IsRequest p) {is : List ℤ}
    (his : ∀ i ∈ is, r.IsPage i) (hfit : message.strlen < r.pageSize) :
    ∀ x ∈ updateAccesses r p message node is, x.InRange r := by
  cases is with
  | nil =>
      exact printAccesses_inRange ha hn ht false fun j hj => Region.isPage_of_mem_pagesOf hp hj
  | cons i is =>
      have hi := his i (by simp)
      intro x hx
      rcases List.mem_cons.mp hx with rfl | hx
      · exact copyAccess_inRange ha hi hfit
      · rw [List.mem_singleton.mp hx]
        exact index_inRange hn hi

theorem receiveAccesses_inRange {thread : Thread}
    (hok : thread.Ok r fun _ m => m.strlen < r.pageSize) (hfit : message.strlen < r.pageSize) :
    ∀ x ∈ receiveAccesses r node message thread, x.InRange r := by
  cases thread with
  | idle => exact fun x hx => absurd hx List.not_mem_nil
  | reading j js =>
      have hj : r.IsPage j := hok j (by simp)
      have hjs : ∀ k ∈ js, r.IsPage k := fun k hk => hok k (by simp [hk])
      have hshown : (shownReply message).strlen < r.pageSize := by
        unfold shownReply
        split_ifs
        · exact hfit
        · exact ha.pageSize_pos
      intro x hx
      rcases List.mem_append.mp hx with hx | hx
      · unfold storeAccesses at hx
        split_ifs at hx
        · rw [Region.pagesOf_of_isPage hj] at hx
          rcases List.mem_cons.mp hx with rfl | hx
          · exact copyAccess_inRange ha hj hfit
          · rw [List.mem_singleton.mp hx]
            exact index_inRange hn hj
        · rw [List.mem_singleton.mp hx]
          exact dropAccess_inRange ha hj
      · rcases List.mem_cons.mp hx with rfl | hx
        · exact outputAccess_inRange hshown
        · exact printAccesses_inRange ha hn (ht.storeReply ha hj hfit) true hjs x hx
  | writing i is p m =>
      obtain ⟨hpages, hp⟩ := hok
      exact updateAccesses_inRange ha hn ht hp (fun k hk => (hpages k (by simp [hk])).1)
        (hpages i (by simp)).2

theorem responderAccesses_inRange {op : ℤ} (hj : r.IsPage j)
    (hop : op = readOp ∨ op = invalidateOp) :
    ∀ x ∈ responderAccesses r node (requestText j op), x.InRange r := by
  have hindex := index_inRange hn hj
  rw [responderAccesses, decodeRequest_requestText hj.1 (by rcases hop with rfl | rfl <;> decide)]
  intro x hx
  rcases hop with rfl | rfl
  · simp only [if_neg (by decide : ¬ readOp = invalidateOp), if_true] at hx
    rcases List.mem_cons.mp hx with rfl | hx
    · exact hindex
    · split_ifs at hx
      · cases hx
      · rw [List.mem_singleton.mp hx]
        exact (textAccess_inRange ha ht hj).1
  · simp only [if_true] at hx
    rcases List.mem_cons.mp hx with rfl | hx
    · exact hindex
    · rw [List.mem_singleton.mp hx]
      exact dropAccess_inRange ha hj

end Local

theorem accesses_inRange {r : Region} {s : Sys} (ha : r.Addressable) (hn : r.numPages ≤ 99)
    (h : Contained r s) {a : Action} (hfits : a.Fits r) :
    ∀ x ∈ accesses r s a, x.InRange r := by
  cases a with
  | start n c =>
      cases c with
      | read p =>
          exact printAccesses_inRange ha hn (h.texts n) true
            fun j hj => Region.isPage_of_mem_pagesOf hfits hj
      | write p message =>
          obtain ⟨hp, hfit⟩ := hfits
          exact List.forall_mem_cons.mpr ⟨hfit, updateAccesses_inRange ha hn (h.texts n) hp
            (fun i hi => Region.isPage_of_mem_pagesOf hp hi) hfit⟩
  | deliver n =>
      simp only [accesses]
      cases hr : (s n).replies with
      | nil => exact fun x hx => absurd hx List.not_mem_nil
      | cons reply replies =>
          exact receiveAccesses_inRange ha hn (h.texts n) (h.threads n)
            (h.replies n reply (by simp [hr]))
  | respond n =>
      simp only [accesses]
      cases hq : (s n.other).requests with
      | nil => exact fun x hx => absurd hx List.not_mem_nil
      | cons request requests =>
          obtain ⟨j, op, hj, hop, rfl⟩ := h.protocol.requests n.other request (by simp [hq])
          exact responderAccesses_inRange ha hn (h.texts n) hj hop

/-- A page that is not one of the region is not in range as an index or as an offset. -/
theorem isPage_of_inRange {r : Region} (hmax : r.pageSize ≤ 2 ^ 24) {p : ℤ} {count : ℕ}
    (hi : (Access.index p).InRange r) (hb : (Access.bytes (r.pageOffset p) (count + 1)).InRange r) :
    r.IsPage p := by
  obtain ⟨h₀, hlt⟩ := hi
  obtain ⟨-, hend⟩ := hb
  have hmul : p * (r.pageSize : ℤ) ≤ 99 * 2 ^ 24 :=
    mul_le_mul (by omega) (by exact_mod_cast hmax) (by omega) (by norm_num)
  rw [Region.pageOffset_of_lt h₀ (by omega), Region.len] at hend
  refine ⟨h₀, ?_⟩
  by_contra hge
  have hle : (r.numPages : ℤ) * r.pageSize ≤ p * r.pageSize :=
    mul_le_mul_of_nonneg_right (by omega) (by omega)
  push_cast at hend
  omega

theorem fits_of_inRange {r : Region} (hmax : r.pageSize ≤ 2 ^ 24) {s : Sys} {a : Action}
    (h : ∀ x ∈ accesses r s a, x.InRange r) : a.Fits r := by
  cases a with
  | start n c =>
      have hrequest : ∀ p, (p ≠ -1 → r.IsPage p) → r.IsRequest p := fun p hp => by
        by_cases hall : p = -1
        · exact .inl hall
        · exact .inr (hp hall)
      cases c with
      | read p =>
          apply hrequest
          intro hall
          have hpages : r.pagesOf p = [p] := if_neg hall
          simp only [accesses, startAccesses, hpages, printAccesses, List.forall_mem_cons] at h
          exact isPage_of_inRange hmax h.2.2.1 h.1
      | write p message =>
          simp only [accesses, startAccesses, List.forall_mem_cons] at h
          obtain ⟨hfit, hupdate⟩ := h
          refine ⟨hrequest p fun hall => ?_, hfit⟩
          have hpages : r.pagesOf p = [p] := if_neg hall
          simp only [hpages, updateAccesses, List.forall_mem_cons] at hupdate
          exact isPage_of_inRange hmax hupdate.2.1 hupdate.1
  | deliver n => trivial
  | respond n => trivial

/-- All indices and all bytes are in range exactly if there are at most 99 pages, only
pages of the region are typed, and every message typed is shorter than a page. -/
theorem all_inRange_iff (r : Region) (hps : 0 < r.pageSize) (hmax : r.pageSize ≤ 2 ^ 24)
    (h64 : r.numPages < 2 ^ 64) (acts : List Action) :
    AllInRange r acts ↔ r.numPages ≤ 99 ∧
      ∀ before a, before ++ [a] <+: acts → ∀ s,
        runActions (step r) (startSys r) before = some s → a.Fits r := by
  constructor
  · rintro ⟨hfill, -, hsteps⟩
    exact ⟨(fillIndices_inRange_iff h64).mp hfill, fun before a hb s hs =>
      fits_of_inRange hmax (hsteps before a hb s hs)⟩
  · rintro ⟨hn, hfits⟩
    have hlen : r.len ≤ 2 ^ 31 := (Nat.mul_le_mul hn hmax).trans (by norm_num)
    refine ⟨(fillIndices_inRange_iff h64).mpr hn, printMsiIndices_inRange hn, ?_⟩
    intro before a hb s hs
    have hrun : GuardedRun (step r) (fun _ a => a.Fits r) (startSys r) before s :=
      .of_prefixes hs fun before' a' hb' =>
        hfits before' a' (hb'.trans ((List.prefix_append before [a]).trans hb))
    have hc : Contained r s := hrun.invariant (I := fun _ s => Contained r s)
      (contained_start ⟨hps, hlen⟩) fun _ _ _ _ hi hg hs => hi.step ⟨hps, hlen⟩ hg hs
    exact accesses_inRange ⟨hps, hlen⟩ hn hc (hfits before a hb s hs)

theorem all_inRange_iff_twoPages :
    let acts : List Action := [.start .first (.write (-1) textA), .respond .second, .deliver .first]
    AllInRange twoPages.toRegion acts ↔ twoPages.numPages ≤ 99 ∧
      ∀ before a, before ++ [a] <+: acts → ∀ s,
        runActions (step twoPages.toRegion) (startSys twoPages.toRegion) before = some s →
        a.Fits twoPages.toRegion :=
  all_inRange_iff twoPages.toRegion (by decide) (by decide) (by decide) _

/-- With 100 pages index 100 is used before the first command, and of two pages page 5
can be written. -/
theorem outside_accessed :
    ¬ AllInRange ⟨4096, 100, by decide⟩ [] ∧
      ¬ AllInRange twoPages.toRegion [.start .first (.write 5 textA)] := by
  constructor
  · intro h
    exact absurd ((fillIndices_inRange_iff (by decide)).mp h.1) (by decide)
  · intro h
    have hwrite := h.2.2 [] _ (List.prefix_refl _) _ rfl
      (copyAccess twoPages.toRegion textA 5) (List.mem_cons_of_mem _ (List.mem_cons_self ..))
    exact absurd hwrite.2 (by decide)

end OperatingSystems.Dsm
