import Mathlib.Data.List.Basic
import Mathlib.Tactic.SplitIfs

/-!
# Command-line options

The results of successive calls of `getopt` on an argument vector, which is a list of
words without the program's name. `spec c` is `none` if the character is no option, and
says otherwise whether the option takes an argument: the rest of its word, or else the
next word. A word that is no option is passed over wherever it stands, and the word `--`
ends the options.

The result is `?` for a character that is no option and for an option whose argument is
missing; `optopt` is the character in both cases.
-/
namespace OperatingSystems.Library

inductive OptResult where
  | option (c : UInt8)
  | withArg (c : UInt8) (optarg : List UInt8)
  | unknown (optopt : UInt8)
deriving DecidableEq

section Getopt
variable (spec : UInt8 → Option Bool)

/-- A word behind its minus sign, with the option in it that takes the next word. -/
def scanWord : List UInt8 → List OptResult × Option UInt8
  | [] => ([], none)
  | c :: rest =>
      match spec c with
      | none => (.unknown c :: (scanWord rest).1, (scanWord rest).2)
      | some false => (.option c :: (scanWord rest).1, (scanWord rest).2)
      | some true => if rest = [] then ([], some c) else ([.withArg c rest], none)

/-- `pending` is an option that takes the next word. -/
def getopt (pending : Option UInt8) : List (List UInt8) → List OptResult
  | [] => (pending.map OptResult.unknown).toList
  | w :: ws =>
      match pending with
      | some c => .withArg c w :: getopt none ws
      | none =>
          if w = [45, 45] then []
          else if w.head? = some 45 ∧ w ≠ [45] then
            (scanWord spec w.tail).1 ++ getopt (scanWord spec w.tail).2 ws
          else getopt none ws

/-- Letters without arguments that may come before one with an argument, and operands. -/
inductive TypedWord where
  | letters (cs : List UInt8)
  | attached (cs : List UInt8) (c : UInt8) (optarg : List UInt8)
  | separate (cs : List UInt8) (c : UInt8) (optarg : List UInt8)
  | operand (w : List UInt8)
deriving DecidableEq

namespace TypedWord

def argv : TypedWord → List (List UInt8)
  | letters cs => [45 :: cs]
  | attached cs c optarg => [45 :: (cs ++ c :: optarg)]
  | separate cs c optarg => [45 :: (cs ++ [c]), optarg]
  | operand w => [w]

/-- The result for a letter without an argument. -/
def letter (c : UInt8) : OptResult :=
  match spec c with
  | none => .unknown c
  | some _ => .option c

def results : TypedWord → List OptResult
  | letters cs => cs.map (letter spec)
  | attached cs c optarg => cs.map (letter spec) ++ [.withArg c optarg]
  | separate cs c optarg => cs.map (letter spec) ++ [.withArg c optarg]
  | operand _ => []

/-- None of the letters takes an argument. -/
def Plain (cs : List UInt8) : Prop := ∀ c ∈ cs, spec c ≠ some true

instance (cs : List UInt8) : Decidable (Plain spec cs) :=
  List.decidableBAll (fun c => spec c ≠ some true) cs

/-- A letter with an argument is one, the others are not, and no word looks like another
kind of word. -/
def Proper : TypedWord → Prop
  | letters cs => cs ≠ [] ∧ cs ≠ [45] ∧ Plain spec cs
  | attached cs c optarg => spec c = some true ∧ optarg ≠ [] ∧ Plain spec cs
  | separate cs c _ => spec c = some true ∧ (cs = [] → c ≠ 45) ∧ Plain spec cs
  | operand w => w.head? ≠ some 45 ∨ w = [45]

instance : DecidablePred (Proper spec)
  | letters _ => inferInstanceAs (Decidable (_ ∧ _ ∧ _))
  | attached _ _ _ => inferInstanceAs (Decidable (_ ∧ _ ∧ _))
  | separate _ _ _ => inferInstanceAs (Decidable (_ ∧ _ ∧ _))
  | operand _ => inferInstanceAs (Decidable (_ ∨ _))

end TypedWord

variable {spec} {cs : List UInt8} {c : UInt8}

theorem scanWord_cons (hc : spec c ≠ some true) (rest : List UInt8) :
    scanWord spec (c :: rest) =
      (TypedWord.letter spec c :: (scanWord spec rest).1, (scanWord spec rest).2) := by
  rw [scanWord, TypedWord.letter]
  cases hs : spec c with
  | none => rfl
  | some takes =>
      cases takes with
      | false => rfl
      | true => exact absurd hs hc

theorem scanWord_append (hcs : TypedWord.Plain spec cs) (rest : List UInt8) :
    scanWord spec (cs ++ rest) =
      (cs.map (TypedWord.letter spec) ++ (scanWord spec rest).1, (scanWord spec rest).2) := by
  induction cs with
  | nil => rfl
  | cons c cs ih =>
      have hrest := ih fun b hb => hcs b (List.mem_cons_of_mem c hb)
      rw [List.cons_append, scanWord_cons (hcs c List.mem_cons_self), hrest]
      rfl

theorem scanWord_last (hc : spec c = some true) : scanWord spec [c] = ([], some c) := by
  rw [scanWord, hc]
  rfl

theorem scanWord_attached (hc : spec c = some true) {optarg : List UInt8} (h : optarg ≠ []) :
    scanWord spec (c :: optarg) = ([.withArg c optarg], none) := by
  rw [scanWord, hc]
  exact if_neg h

theorem getopt_option {w : List UInt8} (hw : w ≠ []) (hdash : w ≠ [45])
    (ws : List (List UInt8)) : getopt spec none ((45 :: w) :: ws) =
      (scanWord spec w).1 ++ getopt spec (scanWord spec w).2 ws := by
  have hend : ¬ (45 :: w = [45, 45]) := by simpa using hdash
  have hoption : (45 :: w).head? = some 45 ∧ 45 :: w ≠ [45] := by simpa using hw
  rw [getopt, if_neg hend, if_pos hoption, List.tail_cons]

/-- The options of a word come first, then those of the words behind it. -/
theorem getopt_word {t : TypedWord} (ht : t.Proper spec) (ws : List (List UInt8)) :
    getopt spec none (t.argv ++ ws) = t.results spec ++ getopt spec none ws := by
  cases t with
  | letters cs =>
      obtain ⟨hne, hdash, hcs⟩ := ht
      have hscan := scanWord_append hcs []
      rw [List.append_nil] at hscan
      rw [TypedWord.argv, List.singleton_append, getopt_option hne hdash, hscan]
      simp [TypedWord.results, scanWord]
  | attached cs c optarg =>
      obtain ⟨hc, hne, hcs⟩ := ht
      have hdash : cs ++ c :: optarg ≠ [45] := by
        intro h
        cases cs with
        | nil => exact hne (List.cons.inj h).2
        | cons b cs => simp at h
      rw [TypedWord.argv, List.singleton_append, getopt_option (by simp) hdash,
        scanWord_append hcs, scanWord_attached hc hne]
      rfl
  | separate cs c optarg =>
      obtain ⟨hc, hfirst, hcs⟩ := ht
      have hdash : cs ++ [c] ≠ [45] := by
        intro h
        cases cs with
        | nil => exact hfirst rfl (List.cons.inj h).1
        | cons b cs => simp at h
      rw [TypedWord.argv, List.cons_append, List.singleton_append,
        getopt_option (by simp) hdash, scanWord_append hcs, scanWord_last hc]
      simp [TypedWord.results, getopt]
  | operand w =>
      have hend : w ≠ [45, 45] := by
        rintro rfl
        rcases ht with h | h
        · exact h rfl
        · cases h
      have hoption : ¬ (w.head? = some 45 ∧ w ≠ [45]) := by
        intro hw
        rcases ht with h | h
        · exact h hw.1
        · exact hw.2 h
      rw [TypedWord.argv, List.singleton_append, getopt, if_neg hend, if_neg hoption]
      rfl

/-- What `getopt` returns for typed words, which may end with `--` and further words. -/
theorem getopt_words {typed : List TypedWord} (h : ∀ t ∈ typed, t.Proper spec)
    {rest : List (List UInt8)} (hrest : rest = [] ∨ rest.head? = some [45, 45]) :
    getopt spec none (typed.flatMap TypedWord.argv ++ rest) =
      typed.flatMap (TypedWord.results spec) := by
  induction typed with
  | nil =>
      cases rest with
      | nil => rfl
      | cons w ws =>
          have hw : w = [45, 45] := by simpa using hrest
          rw [List.flatMap_nil, List.nil_append, getopt, if_pos hw]
          rfl
  | cons t typed ih =>
      have hlater := ih fun u hu => h u (List.mem_cons_of_mem t hu)
      rw [List.flatMap_cons, List.append_assoc, getopt_word (h t List.mem_cons_self), hlater]
      rfl

end Getopt

end OperatingSystems.Library
