import OperatingSystems.Dsm.LocalStore
import OperatingSystems.Library.Scanf

/-!
# The prompt

`main` reads its commands with `scanf` and ignores what `scanf` returns: a variable for
which nothing could be read keeps its value. So the prompt is a loop over the variables
`mode`, `request_page` and `message`, and at the end of the input it runs the last
command again and again. Part 3 has the command `v`, for which it asks no page. A number
that is no `int` and a message that overruns its array are undefined, and end the turns.

A message ends at its newline and starts with its first character that is no white
space, so an empty message cannot be typed. All other commands are read as they were
typed, one after the other.
-/
namespace OperatingSystems.Dsm
open Library

/-- The variables of `main` that the prompt reads. -/
structure Vars where
  mode : UInt8
  requestPage : ℤ
  message : CString

/-- What one turn of the loop does; for an invalid mode it prints a hint. -/
inductive Entry where
  | command (c : Command)
  | view
  | invalid (mode : UInt8) (requestPage : ℤ)
deriving DecidableEq

/-- The branches on `mode`: the letters `r`, `w` and, in Part 3 only, `v`. -/
def Vars.entry (part3 : Bool) (v : Vars) : Entry :=
  if v.mode = 114 then .command (.read v.requestPage)
  else if v.mode = 119 then .command (.write v.requestPage v.message)
  else if part3 ∧ v.mode = 118 then .view
  else .invalid v.mode v.requestPage

def IsInt (p : ℤ) : Prop := -2 ^ 31 ≤ p ∧ p < 2 ^ 31

instance : DecidablePred IsInt := fun _ => inferInstanceAs (Decidable (_ ∧ _))

/-- The `scanf` calls of one turn, on the input that is left; `message` has `pageSize` bytes. -/
def readTurn (pageSize : ℕ) (part3 : Bool) (v : Vars) (input : List UInt8) :
    Option (Vars × List UInt8) :=
  let (c, input) := scanChar input
  let mode : UInt8 := c.getD v.mode
  let (page, input) : Option ℤ × List UInt8 :=
    if part3 ∧ mode = 118 then (none, input) else scanInt input
  let (line, input) := if mode = 119 then scanLine input else (none, input)
  if (∀ p ∈ page, IsInt p) ∧ ∀ bs ∈ line, bs.length < pageSize then
    some (⟨mode, page.getD v.requestPage, (line.map CString.ofBytes).getD v.message⟩, input)
  else none

/-- What the first turns of the loop do. -/
def entries (pageSize : ℕ) (part3 : Bool) : ℕ → Vars → List UInt8 → Option (List Entry)
  | 0, _, _ => some []
  | n + 1, v, input => do
      let (v, input) ← readTurn pageSize part3 v input
      let rest ← entries pageSize part3 n v input
      some (v.entry part3 :: rest)

/-- A message that can be typed on a line of its own. -/
def Typable (message : CString) : Prop :=
  message.bytes ≠ [] ∧ message.bytes.dropWhile isSpace = message.bytes ∧ 10 ∉ message.bytes

instance : DecidablePred Typable := fun _ => inferInstanceAs (Decidable (_ ∧ _ ∧ _))

namespace Entry

/-- The lines typed for it: the letter, the page and the message. -/
def typed : Entry → List UInt8
  | .command (.read p) => 114 :: 10 :: (decimal p ++ [10])
  | .command (.write p message) => 119 :: 10 :: (decimal p ++ 10 :: (message.bytes ++ [10]))
  | .view => [118, 10]
  | .invalid mode p => mode :: 10 :: (decimal p ++ [10])

def CanBeTyped (part3 : Bool) : Entry → Prop
  | .command (.read _) => True
  | .command (.write _ message) => Typable message
  | .view => part3 = true
  | .invalid mode _ => isSpace mode = false ∧ mode ≠ 114 ∧ mode ≠ 119 ∧ ¬ (part3 ∧ mode = 118)

instance (part3 : Bool) : DecidablePred (CanBeTyped part3)
  | .command (.read _) => .isTrue trivial
  | .command (.write _ message) => inferInstanceAs (Decidable (Typable message))
  | .view => inferInstanceAs (Decidable (part3 = true))
  | .invalid _ _ => inferInstanceAs (Decidable (_ ∧ _ ∧ _ ∧ ¬ (_ ∧ _)))

/-- Its number is an `int`, and its message fits into the array. -/
def InBounds (pageSize : ℕ) : Entry → Prop
  | .command (.read p) => IsInt p
  | .command (.write p message) => IsInt p ∧ message.strlen < pageSize
  | .view => True
  | .invalid _ p => IsInt p

instance (pageSize : ℕ) : DecidablePred (InBounds pageSize)
  | .command (.read p) => inferInstanceAs (Decidable (IsInt p))
  | .command (.write p message) =>
      inferInstanceAs (Decidable (IsInt p ∧ message.strlen < pageSize))
  | .view => .isTrue trivial
  | .invalid _ p => inferInstanceAs (Decidable (IsInt p))

/-- The variables after the turn that has read it. -/
def vars (v : Vars) : Entry → Vars
  | .command (.read p) => { v with mode := 114, requestPage := p }
  | .command (.write p message) => ⟨119, p, message⟩
  | .view => { v with mode := 118 }
  | .invalid mode p => { v with mode := mode, requestPage := p }

end Entry

section Turns
variable {pageSize : ℕ} {part3 : Bool} {spaces : List UInt8}

theorem blanks_newline : Blanks [10] := by
  intro b hb
  rw [List.mem_singleton.mp hb]
  decide

theorem entry_vars {e : Entry} (he : e.CanBeTyped part3) (v : Vars) :
    (e.vars v).entry part3 = e := by
  cases e with
  | command c =>
      cases c with
      | read p => rfl
      | write p message => rfl
  | view =>
      have hview : part3 = true := he
      simp [Entry.vars, Vars.entry, hview]
  | invalid mode p =>
      obtain ⟨-, hr, hw, hv⟩ := he
      rw [Entry.vars, Vars.entry]
      dsimp only
      rw [if_neg hr, if_neg hw, if_neg hv]

/-- A turn reads what has been typed for it and leaves the last newline. -/
theorem readTurn_typed (h : Blanks spaces) {e : Entry} (he : e.CanBeTyped part3)
    (hb : e.InBounds pageSize) (v : Vars) (rest : List UInt8) :
    readTurn pageSize part3 v (spaces ++ (e.typed ++ rest)) = some (e.vars v, 10 :: rest) := by
  have hpage : ∀ (p : ℤ) (rest : List UInt8),
      scanInt (10 :: (decimal p ++ 10 :: rest)) = (some p, 10 :: rest) :=
    fun p rest => scanInt_decimal blanks_newline p (by decide) rest
  cases e with
  | command c =>
      cases c with
      | read p =>
          have hint : IsInt p := hb
          have htyped : spaces ++ ((Entry.command (.read p)).typed ++ rest) =
              spaces ++ 114 :: 10 :: (decimal p ++ 10 :: rest) := by
            simp [Entry.typed]
          rw [readTurn, htyped, scanChar_append h (rfl)]
          simp [hpage, hint, Entry.vars]
      | write p message =>
          obtain ⟨hne, hstart, hline⟩ := he
          obtain ⟨hint, hfit⟩ := hb
          have hlength : message.bytes.length < pageSize := hfit
          have htyped : spaces ++ ((Entry.command (.write p message)).typed ++ rest) =
              spaces ++ 119 :: 10 :: (decimal p ++ 10 :: (message.bytes ++ 10 :: rest)) := by
            simp [Entry.typed]
          have hmessage : scanLine (10 :: (message.bytes ++ 10 :: rest)) =
              (some message.bytes, 10 :: rest) :=
            scanLine_append blanks_newline hne hstart hline rest
          rw [readTurn, htyped, scanChar_append h rfl]
          simp [hpage, hint, hmessage, hlength, CString.ofBytes_bytes, Entry.vars]
  | view =>
      have hview : part3 = true := he
      have htyped : spaces ++ (Entry.view.typed ++ rest) = spaces ++ 118 :: 10 :: rest := rfl
      rw [readTurn, htyped, scanChar_append h rfl]
      simp [hview, Entry.vars]
  | invalid mode p =>
      obtain ⟨hspace, hr, hw, hv⟩ := he
      have hint : IsInt p := hb
      have htyped : spaces ++ ((Entry.invalid mode p).typed ++ rest) =
          spaces ++ mode :: 10 :: (decimal p ++ 10 :: rest) := by
        simp [Entry.typed]
      rw [readTurn, htyped, scanChar_append h hspace]
      simp [if_neg hv, hpage, hint, if_neg hw, Entry.vars]

/-- At the end of the input nothing is read. -/
theorem readTurn_blanks (h : Blanks spaces) (v : Vars) :
    readTurn pageSize part3 v spaces = some (v, []) := by
  have hpage : (if part3 = true ∧ v.mode = 118 then ((none : Option ℤ), ([] : List UInt8))
      else scanInt []) = (none, []) := by
    split_ifs
    · rfl
    · rfl
  have hline : (if v.mode = 119 then scanLine [] else ((none : Option (List UInt8)), [])) =
      (none, []) := by
    split_ifs
    · rfl
    · rfl
  rw [readTurn, scanChar_blanks h]
  simp [hpage, hline]

theorem entries_blanks (h : Blanks spaces) (n : ℕ) (v : Vars) :
    entries pageSize part3 n v spaces = some (List.replicate n (v.entry part3)) := by
  induction n generalizing spaces with
  | zero => rfl
  | succ n ih =>
      rw [entries, readTurn_blanks h]
      simp only [Option.bind_eq_bind, Option.bind_some, ih blanks_nil]
      rfl

theorem entries_typed (h : Blanks spaces) {es : List Entry}
    (hes : ∀ e ∈ es, e.CanBeTyped part3 ∧ e.InBounds pageSize) (n : ℕ) (v : Vars) :
    entries pageSize part3 (es.length + n) v (spaces ++ es.flatMap Entry.typed) =
      some (es ++ List.replicate n (es.getLast?.getD (v.entry part3))) := by
  induction es generalizing spaces v with
  | nil =>
      rw [List.flatMap_nil, List.append_nil, List.length_nil, Nat.zero_add]
      exact entries_blanks h n v
  | cons e es ih =>
      obtain ⟨he, hb⟩ := hes e List.mem_cons_self
      have hlast : (e :: es).getLast?.getD (v.entry part3) = es.getLast?.getD e := by
        rw [List.getLast?_cons, Option.getD_some]
      have hrest := ih blanks_newline (fun d hd => hes d (List.mem_cons_of_mem e hd)) (e.vars v)
      rw [entry_vars he] at hrest
      rw [List.length_cons, Nat.add_right_comm, entries, List.flatMap_cons,
        readTurn_typed h he hb]
      rw [List.singleton_append] at hrest
      simp only [Option.bind_eq_bind, Option.bind_some, hrest, entry_vars he, hlast,
        List.cons_append]

end Turns

/-- The loop does what has been typed, in order, and then the last of it for ever. -/
theorem prompt_round_trip (pageSize : ℕ) (part3 : Bool) (v : Vars) {es : List Entry}
    (hes : ∀ e ∈ es, e.CanBeTyped part3 ∧ e.InBounds pageSize) (n : ℕ) :
    entries pageSize part3 (es.length + n) v (es.flatMap Entry.typed) =
      some (es ++ List.replicate n (es.getLast?.getD (v.entry part3))) :=
  entries_typed blanks_nil hes n v

/-- A write, a view of the states and an unknown letter, and the letter once more. -/
theorem prompt_round_trip_mixed :
    entries 4096 true 4 ⟨0, 0, CString.empty⟩
      (([.command (.write (-1) textA), .view, .invalid 120 7] : List Entry).flatMap Entry.typed) =
        some [.command (.write (-1) textA), .view, .invalid 120 7, .invalid 120 7] := by
  have htyped : ∀ e ∈ ([.command (.write (-1) textA), .view, .invalid 120 7] : List Entry),
      e.CanBeTyped true ∧ e.InBounds 4096 := by decide
  exact prompt_round_trip 4096 true ⟨0, 0, CString.empty⟩ htyped 1

def TextArray.transcript (r : Region) : TextArray → List Command → List (List (ℤ × CString))
  | _, [] => []
  | texts, c :: cmds => (texts.execute r c).2 :: transcript r (texts.execute r c).1 cmds

section Program
variable {r : Region} {cmds : List Command}

end Program

end OperatingSystems.Dsm
