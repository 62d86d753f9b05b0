import OperatingSystems.Dsm.Handshake
import OperatingSystems.Library.GuardedRun
import OperatingSystems.Library.MessageStream

/-!
# The stream from one process to the other

A process writes its handshake and its requests to `remote_socket`; the peer reads
them from `new_socket`, the handshake in `main` and every request in one turn of the
responder. No message carries its length or an end mark: each `read` is decoded as
one message, and it returns some of the bytes in flight, at most the buffer's size.

Only the first process sends a handshake. It does not wait for an answer to it; a
request waits for the reply to the request before. A NULL token stops the reader.
-/
namespace OperatingSystems.Dsm
open Library

/-- A decoded handshake has no address if `sscanf` finds none; none is sent so. -/
inductive Message where
  | handshake (len : UInt64) (addr : Option UInt64)
  | request (page operation : ℤ)
deriving DecidableEq, Repr

namespace Message

def text : Message → List UInt8
  | .handshake len addr => ((handshakeText len (addr.getD 0)).take (buffSize - 1)).bytes
  | .request page operation => (requestText page operation).bytes

/-- What the programs send: the result of a successful `mmap`, or an `int` page. -/
def Sendable : Message → Prop
  | .handshake len (some addr) => len ≠ 0 ∧ addr ≠ 0 ∧ addr ≠ mapFailed
  | .handshake _ none => False
  | .request page operation =>
      -2 ^ 31 ≤ page ∧ page < 2 ^ 31 ∧ (operation = readOp ∨ operation = invalidateOp)

instance : DecidablePred Sendable
  | .handshake len (some addr) =>
      inferInstanceAs (Decidable (len ≠ 0 ∧ addr ≠ 0 ∧ addr ≠ mapFailed))
  | .handshake _ none => inferInstanceAs (Decidable False)
  | .request page operation => inferInstanceAs (Decidable
      (-2 ^ 31 ≤ page ∧ page < 2 ^ 31 ∧ (operation = readOp ∨ operation = invalidateOp)))

def isRequest : Message → Bool
  | .handshake _ _ => false
  | .request _ _ => true

def NonnegPage : Message → Prop
  | .handshake _ _ => True
  | .request page _ => 0 ≤ page

instance : DecidablePred NonnegPage
  | .handshake _ _ => inferInstanceAs (Decidable True)
  | .request page _ => inferInstanceAs (Decidable (0 ≤ page))

end Message

/-- `awaiting` is the writer's, between a request and its reply; `replying` is the
responder's, between a request it has read and the reply to it. -/
structure Line where
  stream : MessageStream Message UInt8
  awaiting : Bool
  replying : Bool
deriving DecidableEq

inductive LineAction where
  | send (m : Message)
  | read (n : ℕ)
  | reply
deriving DecidableEq

namespace Line

def start : Line := ⟨.empty, false, false⟩

def ExpectsHandshake (writer : Side) (l : Line) : Prop :=
  writer = .first ∧ l.stream.received = []

instance (writer : Side) (l : Line) : Decidable (l.ExpectsHandshake writer) :=
  inferInstanceAs (Decidable (_ ∧ _))

def MaySend (writer : Side) (l : Line) : Message → Prop
  | .handshake _ _ => writer = .first ∧ l.stream.sent = []
  | .request _ _ => (writer = .first → l.stream.sent ≠ []) ∧ l.awaiting = false

instance (writer : Side) (l : Line) : DecidablePred (l.MaySend writer)
  | .handshake _ _ => inferInstanceAs (Decidable (_ ∧ _))
  | .request _ _ => inferInstanceAs (Decidable ((_ → _) ∧ _))

def decode (writer : Side) (l : Line) (buffer : List UInt8) : Option Message :=
  if l.ExpectsHandshake writer then (decodeHandshake buffer).map fun h => .handshake h.1 h.2
  else (decodeRequest buffer).map fun r => .request r.1 r.2

def bufferSize (writer : Side) (pageSize : ℕ) (l : Line) : ℕ :=
  if l.ExpectsHandshake writer then handshakeSize else pageSize

def MayRead (writer : Side) (pageSize : ℕ) (l : Line) (n : ℕ) : Prop :=
  l.stream.stopped = false ∧ l.replying = false ∧ 0 < n ∧ n ≤ l.stream.inFlight.length ∧
    n ≤ l.bufferSize writer pageSize

instance (writer : Side) (pageSize : ℕ) (l : Line) (n : ℕ) :
    Decidable (l.MayRead writer pageSize n) :=
  inferInstanceAs (Decidable (_ ∧ _ ∧ _ ∧ _ ∧ _))

def step (writer : Side) (pageSize : ℕ) (l : Line) : LineAction → Option Line
  | .send m =>
      if l.MaySend writer m ∧ m.Sendable then
        some { l with stream := l.stream.send Message.text m, awaiting := m.isRequest }
      else none
  | .read n =>
      if l.MayRead writer pageSize n then
        some { l with
          stream := l.stream.read (l.decode writer) n
          replying := !decide (l.ExpectsHandshake writer) }
      else none
  | .reply =>
      if l.stream.stopped = false ∧ l.replying = true then
        some { l with awaiting := false, replying := false }
      else none

end Line

section Texts
variable {len addr : UInt64} {page op : ℤ}

theorem text_handshake (haddr : addr ≠ 0) :
    (Message.handshake len (some addr)).text =
      numeral 10 len.toNat ++ 45 :: 48 :: 120 :: numeral 16 addr.toNat := by
  have hfits : (handshakeText len addr).strlen ≤ 39 := strlen_handshakeText haddr
  rw [Message.text, Option.getD_some, CString.take_of_strlen_le (by rw [buffSize]; omega),
    handshakeText_bytes haddr]

theorem text_ne_nil (m : Message) (h : m.Sendable) : m.text ≠ [] := by
  cases m with
  | handshake len addr =>
      cases addr with
      | none => exact h.elim
      | some addr => simp [text_handshake h.2.1]
  | request page op => simp [Message.text, requestText]

/-- The operation is one digit, so a part of a request misses it. -/
theorem decodeRequest_take (hp : 0 ≤ page) (hop : op = readOp ∨ op = invalidateOp) {n : ℕ}
    (hn : n < (requestText page op).bytes.length) :
    decodeRequest ((requestText page op).bytes.take n) = none := by
  have hlen : (decimal op).length = 1 := by
    rcases hop with rfl | rfl <;> rfl
  simp only [requestText, List.length_append, List.length_cons, hlen] at hn
  exact decodeRequest_eq_none (strtok_strtok_take (r := decimal op) (decimal_ne_nil page)
    (minus_notMem_decimal hp) (by omega))

/-- A request starts with a digit. -/
theorem requestText_cons (hp : 0 ≤ page) (op : ℤ) :
    ∃ c cs, (requestText page op).bytes = c :: cs ∧ isDigit c := by
  obtain ⟨c, cs, hc⟩ := List.exists_cons_of_ne_nil (decimal_ne_nil page)
  have hdigit : isDigit c := by
    refine isDigit_of_mem_digits (n := page.natAbs) ?_
    rw [← decimal_of_nonneg hp, hc]
    exact List.mem_cons_self
  exact ⟨c, cs ++ 45 :: decimal op, by simp [requestText, hc], hdigit⟩

theorem toNat_ne_max (h : addr ≠ mapFailed) : addr.toNat ≠ 2 ^ 64 - 1 :=
  fun hmax => h (UInt64.toNat_inj.mp hmax)

variable (haddr : addr ≠ 0) (hfailed : addr ≠ mapFailed) (hlen : len ≠ 0)
include haddr hfailed hlen

/-- A part of a handshake lacks its address or has another one. -/
theorem decodeHandshake_take {n : ℕ}
    (hn : n < (Message.handshake len (some addr)).text.length) :
    decodeHandshake ((Message.handshake len (some addr)).text.take n) ≠ some (len, some addr) := by
  rw [text_handshake haddr] at hn ⊢
  by_cases hcut : n ≤ (numeral 10 len.toNat).length + 1
  · rw [decodeHandshake_eq_none (strtok_strtok_take (numeral_ne_nil 10 _)
      (minus_notMem_length len) hcut)]
    exact (Option.some_ne_none _).symm
  · obtain ⟨k, rfl⟩ := Nat.exists_eq_add_of_lt (not_le.mp hcut)
    have hpart : (48 :: 120 :: numeral 16 addr.toNat).take (k + 1) ≠ [] := by simp
    have hpointer : 45 ∉ (48 :: 120 :: numeral 16 addr.toNat).take (k + 1) :=
      fun h => minus_notMem_pointer addr (List.mem_of_mem_take h)
    simp only [List.length_append, List.length_cons] at hn
    have hsplit : (numeral 10 len.toNat).length + 1 + k + 1 =
        (numeral 10 len.toNat).length + (k + 1 + 1) := by omega
    rw [hsplit, List.take_length_add_append, List.take_succ_cons, decodeHandshake_length hlen,
      strtok_last hpart hpointer]
    intro h
    have hscan := (Prod.mk.inj (Option.some.inj h)).2
    exact scanPointer_take_ne haddr (toNat_ne_max hfailed) (by omega) hscan

/-- The digits of a request behind a handshake become part of its address. -/
theorem decodeHandshake_joined {c : UInt8} (hc : isDigit c) (cs : List UInt8) :
    decodeHandshake ((Message.handshake len (some addr)).text ++ c :: cs) ≠
      some (len, some addr) := by
  have hminus : ∀ x ∈ 120 :: numeral 16 addr.toNat, (x != 45) = true := by
    intro x hx
    rw [bne_iff_ne]
    rintro rfl
    exact minus_notMem_pointer addr (List.mem_cons_of_mem _ hx)
  have hdash : (c != 45) = true := bne_iff_ne.mpr (ne_of_isDigit hc (by decide))
  have htoken : (48 :: (120 :: numeral 16 addr.toNat ++ c :: cs)).takeWhile (· != 45) =
      48 :: 120 :: (numeral 16 addr.toNat ++ c :: cs.takeWhile (· != 45)) := by
    rw [List.takeWhile_cons_of_pos (by decide), List.takeWhile_append_of_pos hminus,
      List.takeWhile_cons_of_pos (p := (· != 45)) hdash]
    rfl
  obtain ⟨d, hd, hvalue⟩ := digitValue_of_isDigit hc
  have hmore : leadingDigits 16 (c :: cs.takeWhile (· != 45)) ≠ [] := by
    simp only [leadingDigits, hvalue, if_pos (by omega : d < 16)]
    exact List.cons_ne_nil _ _
  have hfirst := strtok_cons (d := 45) (b := 48) (by decide)
    (120 :: numeral 16 addr.toNat ++ c :: cs)
  rw [htoken] at hfirst
  rw [text_handshake haddr, List.append_assoc, List.cons_append, List.cons_append,
    decodeHandshake_length hlen]
  intro h
  obtain ⟨token, htok, hread⟩ := Option.map_eq_some_iff.mp h
  obtain ⟨token', htok', hscan⟩ := Option.map_eq_some_iff.mp hfirst
  obtain rfl : token' = token := Option.some.inj (htok'.symm.trans htok)
  rw [hscan] at hread
  exact scanPointer_append_ne haddr (toNat_ne_max hfailed) hmore (Prod.mk.inj hread).2

end Texts

namespace Line
variable {writer : Side} {pageSize : ℕ} {l t : Line} {len addr : UInt64} {page op : ℤ} {n : ℕ}

/-- Where writer and reader stand to each other while the stream is aligned. -/
inductive Paced (writer : Side) (l : Line) : Prop
  | idle (hpending : l.stream.pending = []) (ha : l.awaiting = false) (hr : l.replying = false)
  | shaking {len addr : UInt64} (hm : (Message.handshake len (some addr)).Sendable)
      (hx : l.ExpectsHandshake writer) (ha : l.awaiting = false) (hr : l.replying = false)
      (hpending : l.stream.pending = [.handshake len (some addr)])
  | hurried {len addr : UInt64} {page op : ℤ} (hm : (Message.handshake len (some addr)).Sendable)
      (hq : (Message.request page op).Sendable) (hp : 0 ≤ page)
      (hx : l.ExpectsHandshake writer) (ha : l.awaiting = true) (hr : l.replying = false)
      (hpending : l.stream.pending = [.handshake len (some addr), .request page op])
  | asked {page op : ℤ} (hq : (Message.request page op).Sendable) (hp : 0 ≤ page)
      (hx : ¬l.ExpectsHandshake writer) (ha : l.awaiting = true) (hr : l.replying = false)
      (hpending : l.stream.pending = [.request page op])
  | answering (hx : ¬l.ExpectsHandshake writer) (ha : l.awaiting = true) (hr : l.replying = true)
      (hpending : l.stream.pending = [])

structure InStep (writer : Side) (l : Line) : Prop where
  aligned : l.stream.Aligned Message.text
  paced : l.Paced writer

theorem inStep_start (writer : Side) : start.InStep writer :=
  ⟨MessageStream.aligned_empty _, .idle rfl rfl rfl⟩

theorem InStep.sendable (h : l.InStep writer) : ∀ m ∈ l.stream.pending, m.Sendable := by
  cases h.paced with
  | idle hpending ha hr => simp [hpending]
  | shaking hm hx ha hr hpending => simp [hpending, hm]
  | hurried hm hq hp hx ha hr hpending => simp [hpending, hm, hq]
  | asked hq hp hx ha hr hpending => simp [hpending, hq]
  | answering hx ha hr hpending => simp [hpending]

theorem InStep.faithful (h : l.InStep writer) : l.stream.Faithful :=
  h.aligned.faithful fun m hm => text_ne_nil m (h.sendable m hm)

theorem decode_handshake (hx : l.ExpectsHandshake writer)
    (hm : (Message.handshake len (some addr)).Sendable) :
    l.decode writer (Message.handshake len (some addr)).text =
      some (.handshake len (some addr)) := by
  rw [decode, if_pos hx, text_handshake hm.2.1, ← handshakeText_bytes hm.2.1,
    decodeHandshake_text hm.1 hm.2.1]
  rfl

theorem decode_request (hx : ¬l.ExpectsHandshake writer)
    (hq : (Message.request page op).Sendable) (hp : 0 ≤ page) :
    l.decode writer (Message.request page op).text = some (.request page op) := by
  have hop : 0 ≤ op := by
    rcases hq.2.2 with h | h
    · exact h ▸ by decide
    · exact h ▸ by decide
  rw [decode, if_neg hx, Message.text, decodeRequest_requestText hp hop]
  rfl

/-- What a send, a read and a reply require and do. -/
theorem step_send {m : Message} (h : l.step writer pageSize (.send m) = some t) :
    l.MaySend writer m ∧ m.Sendable ∧
      t = { l with stream := l.stream.send Message.text m, awaiting := m.isRequest } := by
  simp only [step, Option.ite_none_right_eq_some, Option.some.injEq] at h
  exact ⟨h.1.1, h.1.2, h.2.symm⟩

theorem step_read (h : l.step writer pageSize (.read n) = some t) :
    l.MayRead writer pageSize n ∧ t = { l with
      stream := l.stream.read (l.decode writer) n
      replying := !decide (l.ExpectsHandshake writer) } := by
  simp only [step, Option.ite_none_right_eq_some, Option.some.injEq] at h
  exact ⟨h.1, h.2.symm⟩

theorem step_reply (h : l.step writer pageSize .reply = some t) :
    l.replying = true ∧ t = { l with awaiting := false, replying := false } := by
  simp only [step, Option.ite_none_right_eq_some, Option.some.injEq] at h
  exact ⟨h.1.2, h.2.symm⟩

theorem InStep.send {m : Message} (h : l.InStep writer)
    (hstep : l.step writer pageSize (.send m) = some t) (hp : m.NonnegPage) :
    t.InStep writer := by
  obtain ⟨hmay, hm, rfl⟩ := step_send hstep
  have hpend := h.aligned.pending_send m
  refine ⟨h.aligned.send m, ?_⟩
  have hsent := h.aligned.sent_eq
  cases m with
  | handshake len addr =>
      cases addr with
      | none => exact hm.elim
      | some addr =>
          -- nothing was sent, so nothing is in flight and nothing was read
          rw [hmay.2, List.append_eq_nil_iff] at hsent
          rw [hsent.2] at hpend
          have hx : l.ExpectsHandshake writer := ⟨hmay.1, hsent.1⟩
          cases h.paced with
          | idle _ ha hr => exact .shaking hm hx rfl hr hpend
          | shaking _ _ _ _ hpending => cases hsent.2.symm.trans hpending
          | hurried _ _ _ _ _ _ hpending => cases hsent.2.symm.trans hpending
          | asked _ _ _ _ _ hpending => cases hsent.2.symm.trans hpending
          | answering hno _ _ _ => exact absurd hx hno
  | request page op =>
      cases h.paced with
      | idle hpending ha hr =>
          have hx : ¬l.ExpectsHandshake writer := by
            intro hx
            rw [hpending, hx.2] at hsent
            exact hmay.1 hx.1 hsent.symm
          rw [hpending] at hpend
          exact .asked hm hp hx rfl hr hpend
      | shaking hshake hx ha hr hpending =>
          rw [hpending] at hpend
          exact .hurried hshake hm hp hx rfl hr hpend
      | hurried _ _ _ _ ha _ _ => cases ha.symm.trans hmay.2
      | asked _ _ _ ha _ _ => cases ha.symm.trans hmay.2
      | answering _ ha _ _ => cases ha.symm.trans hmay.2

theorem InStep.reply (h : l.InStep writer) (hstep : l.step writer pageSize .reply = some t) :
    t.InStep writer := by
  obtain ⟨hreplying, rfl⟩ := step_reply hstep
  cases h.paced with
  | idle _ _ hr => cases hr.symm.trans hreplying
  | shaking _ _ _ hr _ => cases hr.symm.trans hreplying
  | hurried _ _ _ _ _ hr _ => cases hr.symm.trans hreplying
  | asked _ _ _ _ hr _ => cases hr.symm.trans hreplying
  | answering _ _ _ hpending => exact ⟨h.aligned, .idle hpending rfl rfl⟩

theorem InStep.read (h : l.InStep writer) (hstep : l.step writer pageSize (.read n) = some t)
    (hone : l.stream.TakesOne Message.text n) : t.InStep writer := by
  obtain ⟨hmay, rfl⟩ := step_read hstep
  obtain ⟨m, rest, hnext, rfl⟩ := hone
  have hlater : ∀ m rest, l.stream.pending = m :: rest → l.decode writer m.text = some m →
      ¬ExpectsHandshake writer ⟨l.stream.read (l.decode writer) m.text.length, l.awaiting,
        !decide (l.ExpectsHandshake writer)⟩ := by
    intro m rest hpending hdecode hx
    rw [ExpectsHandshake, MessageStream.read_takesOne h.aligned hpending hdecode] at hx
    exact List.append_ne_nil_of_right_ne_nil _ (List.cons_ne_nil m []) hx.2
  cases h.paced with
  | idle hpending _ _ => cases hpending.symm.trans hnext
  | shaking hm hx ha _ hpending =>
      obtain ⟨rfl, rfl⟩ := List.cons.inj (hpending.symm.trans hnext)
      have hread := h.aligned.read hpending (decode_handshake hx hm)
      exact ⟨hread.1, .idle hread.2 ha (by simp [hx])⟩
  | hurried hm hq hp hx ha _ hpending =>
      obtain ⟨rfl, rfl⟩ := List.cons.inj (hpending.symm.trans hnext)
      have hdecode := decode_handshake hx hm
      have hread := h.aligned.read hpending hdecode
      exact ⟨hread.1, .asked hq hp (hlater _ _ hpending hdecode) ha (by simp [hx]) hread.2⟩
  | asked hq hp hx ha _ hpending =>
      obtain ⟨rfl, rfl⟩ := List.cons.inj (hpending.symm.trans hnext)
      have hdecode := decode_request hx hq hp
      have hread := h.aligned.read hpending hdecode
      exact ⟨hread.1, .answering (hlater _ _ hpending hdecode) ha (by simp [hx]) hread.2⟩
  | answering _ _ hr _ => cases hr.symm.trans hmay.2.1

theorem decode_ne_handshake {buffer : List UInt8} (hx : l.ExpectsHandshake writer)
    (h : decodeHandshake buffer ≠ some (len, some addr)) :
    l.decode writer buffer ≠ some (.handshake len (some addr)) := by
  rw [decode, if_pos hx]
  intro hd
  obtain ⟨⟨len', addr'⟩, hbuffer, he⟩ := Option.map_eq_some_iff.mp hd
  obtain ⟨rfl, rfl⟩ := Message.handshake.inj he
  exact h hbuffer

/-- More or less than the next message is no message, or another one. -/
theorem InStep.astray_read (h : l.InStep writer)
    (hstep : l.step writer pageSize (.read n) = some t)
    (hone : ¬l.stream.TakesOne Message.text n) : t.stream.Astray := by
  obtain ⟨⟨-, hreplying, hn, hle, -⟩, rfl⟩ := step_read hstep
  have hbytes := h.aligned.bytes
  cases h.paced with
  | idle hpending _ _ =>
      rw [hbytes, hpending] at hle
      exact absurd hle (not_le.mpr hn)
  | @shaking len addr hm hx _ _ hpending =>
      have hlen : n ≠ (Message.handshake len (some addr)).text.length :=
        fun he => hone ⟨_, _, hpending, he⟩
      rw [hpending, List.flatMap_singleton] at hbytes
      rw [hbytes] at hle
      refine h.aligned.astray_read hpending (decode_ne_handshake hx ?_)
      rw [hbytes]
      exact decodeHandshake_take hm.2.1 hm.2.2 hm.1 (by omega)
  | @hurried len addr page op hm hq hp hx _ _ hpending =>
      have hlen : n ≠ (Message.handshake len (some addr)).text.length :=
        fun he => hone ⟨_, _, hpending, he⟩
      obtain ⟨c, cs, hcs, hc⟩ := requestText_cons hp op
      rw [hpending, List.flatMap_cons, List.flatMap_singleton] at hbytes
      refine h.aligned.astray_read hpending (decode_ne_handshake hx ?_)
      rw [hbytes]
      rcases lt_or_gt_of_ne hlen with hlt | hgt
      · rw [List.take_append_of_le_length hlt.le]
        exact decodeHandshake_take hm.2.1 hm.2.2 hm.1 hlt
      · obtain ⟨k, rfl⟩ := Nat.exists_eq_add_of_lt hgt
        have htext : (Message.request page op).text = c :: cs := hcs
        rw [Nat.add_assoc, List.take_length_add_append, htext, List.take_succ_cons]
        exact decodeHandshake_joined hm.2.1 hm.2.2 hm.1 hc _
  | @asked page op hq hp hx _ _ hpending =>
      have hlen : n ≠ (Message.request page op).text.length :=
        fun he => hone ⟨_, _, hpending, he⟩
      rw [hpending, List.flatMap_singleton] at hbytes
      rw [hbytes] at hle
      refine h.aligned.astray_read hpending ?_
      rw [decode, if_neg hx, hbytes, Message.text, decodeRequest_take hp hq.2.2 (by
        rw [Message.text] at hlen hle
        omega)]
      exact (Option.some_ne_none _).symm
  | answering _ _ hr _ => cases hr.symm.trans hreplying

theorem astray_step {a : LineAction} (h : l.stream.Astray)
    (hstep : l.step writer pageSize a = some t) : t.stream.Astray := by
  cases a with
  | send m =>
      obtain ⟨-, -, rfl⟩ := step_send hstep
      exact h.send m
  | read n =>
      obtain ⟨-, rfl⟩ := step_read hstep
      exact h.read n
  | reply =>
      obtain ⟨-, rfl⟩ := step_reply hstep
      exact h

/-- The guard of a run: no request for a negative page is sent. -/
def NonnegPages (_ : Line) : LineAction → Prop
  | .send m => m.NonnegPage
  | .read _ => True
  | .reply => True

instance (l : Line) : DecidablePred (l.NonnegPages)
  | .send m => inferInstanceAs (Decidable m.NonnegPage)
  | .read _ => inferInstanceAs (Decidable True)
  | .reply => inferInstanceAs (Decidable True)

/-- Every read of the run returns exactly the bytes of one message. -/
def ReadsOneMessage (writer : Side) (pageSize : ℕ) (as : List LineAction) : Prop :=
  ∀ before n l, before ++ [.read n] <+: as →
    runActions (step writer pageSize) start before = some l → l.stream.TakesOne Message.text n

variable {as : List LineAction}

theorem readsOneMessage_concat {a : LineAction}
    (hrun : runActions (step writer pageSize) start as = some l) :
    ReadsOneMessage writer pageSize (as ++ [a]) ↔ ReadsOneMessage writer pageSize as ∧
      ∀ n, a = .read n → l.stream.TakesOne Message.text n := by
  constructor
  · intro h
    refine ⟨fun before n k hb => h before n k (hb.trans (List.prefix_append _ _)), ?_⟩
    rintro n rfl
    exact h as n l (List.prefix_refl _) hrun
  · rintro ⟨hbefore, hlast⟩ before n k hb hk
    rcases List.prefix_concat_iff.mp hb with he | hb
    · obtain ⟨rfl, hread⟩ := List.append_inj' he rfl
      obtain rfl := Option.some.inj (hrun.symm.trans hk)
      exact hlast n (List.singleton_inj.mp hread).symm
    · exact hbefore before n k hb hk

theorem run_inStep (h : GuardedRun (step writer pageSize) NonnegPages start as l)
    (hone : ReadsOneMessage writer pageSize as) : l.InStep writer := by
  induction h with
  | init => exact inStep_start writer
  | @step as s t a hrun hguard hstep ih =>
      obtain ⟨hbefore, hlast⟩ := (readsOneMessage_concat hrun.runActions).mp hone
      cases a with
      | send m => exact (ih hbefore).send hstep hguard
      | read n => exact (ih hbefore).read hstep (hlast n rfl)
      | reply => exact (ih hbefore).reply hstep

/-- The first read that does not take one message spoils the rest of the run. -/
theorem run_astray (h : GuardedRun (step writer pageSize) NonnegPages start as l)
    (hone : ¬ReadsOneMessage writer pageSize as) : l.stream.Astray := by
  induction h with
  | init =>
      refine absurd (fun before n k hb _ => ?_) hone
      exact absurd (List.prefix_nil.mp hb) (List.concat_ne_nil _ _)
  | @step as s t a hrun _ hstep ih =>
      by_cases hbefore : ReadsOneMessage writer pageSize as
      · have hlast : ¬∀ n, a = .read n → s.stream.TakesOne Message.text n :=
          fun hlast => hone ((readsOneMessage_concat hrun.runActions).mpr ⟨hbefore, hlast⟩)
        push Not at hlast
        obtain ⟨n, rfl, hnot⟩ := hlast
        exact (run_inStep hrun hbefore).astray_read hstep hnot
      · exact astray_step (ih hbefore) hstep

end Line

/-- The peer recovers what is sent exactly if every read returns one message. -/
theorem stream_decoded_iff {writer : Side} {pageSize : ℕ} {as : List LineAction} {l : Line}
    (h : GuardedRun (Line.step writer pageSize) Line.NonnegPages .start as l) :
    l.stream.Faithful ↔ Line.ReadsOneMessage writer pageSize as := by
  constructor
  · intro hf
    by_contra hone
    exact (Line.run_astray h hone).not_faithful hf
  · intro hone
    exact (Line.run_inStep h hone).faithful

/-- A handshake of 19 bytes, a request for page 0 and its reply. -/
def wholeReads : List LineAction :=
  [.send (.handshake 4096 (some 0x7f0000000000)), .read 19, .send (.request 0 1), .read 3, .reply]

theorem stream_decoded_wholeReads :
    ∃ l, runActions (Line.step .first 4096) .start wholeReads = some l ∧
      (l.stream.Faithful ↔ Line.ReadsOneMessage .first 4096 wholeReads) := by
  have hrun : (runActions (guardedStep (Line.step .first 4096) Line.NonnegPages) .start
      wholeReads).isSome := by decide +kernel
  obtain ⟨l, hl⟩ := Option.isSome_iff_exists.mp hrun
  have hguarded := GuardedRun.of_runActions hl
  exact ⟨l, hguarded.runActions, stream_decoded_iff hguarded⟩

/-- The peer reads the handshake and the first request at once. -/
def joinedRead : List LineAction :=
  [.send (.handshake 4096 (some 0x7f0000000000)), .send (.request 0 1), .read 22]

theorem joinedRead_altered :
    ¬∀ (writer : Side) (pageSize : ℕ) (as : List LineAction) (l : Line),
      runActions (Line.step writer pageSize) .start as = some l → l.stream.Faithful := by
  intro h
  have hreceived : (runActions (Line.step .first 4096) .start joinedRead).map
      (fun l => (l.stream.sent.head?, l.stream.received)) =
      some (some (.handshake 4096 (some 0x7f0000000000)),
        [.handshake 4096 (some 0x7f00000000000)]) := by decide +kernel
  obtain ⟨l, hl, hlogs⟩ := Option.map_eq_some_iff.mp hreceived
  obtain ⟨hsent, hgot⟩ := Prod.mk.inj hlogs
  obtain ⟨rest, hrest⟩ := (h .first 4096 joinedRead l hl).inOrder
  rw [← hrest, hgot, List.cons_append, List.head?_cons] at hsent
  exact absurd hsent (by decide)

end OperatingSystems.Dsm
