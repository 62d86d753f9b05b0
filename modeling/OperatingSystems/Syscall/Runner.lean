import OperatingSystems.Library.Getopt
import OperatingSystems.Library.Scanf
import OperatingSystems.Syscall.Cipher
import Mathlib.Data.List.Induction

/-!
# The program that makes the call

`main` of `runner.c` takes a string and a key from its command line and passes them to
`s2_encrypt`. Each `-s` is copied with `strcpy` over the string before it, so that the
last one counts; it may leave bytes of a longer one behind its NUL.

`str` is the stack from the address of the array `str[100]` on, of which `mapped` bytes
can be read. The wrapper `syscall` returns -1 for every error number. An argument of
`-k` outside of `int` is undefined in C and is not modelled.
-/
namespace OperatingSystems.Syscall
open Library

inductive RunnerLine where
  | unknownOption (optopt : UInt8)
  | inputString (str : CString) (key : ℤ)
  | returnCode (ret : ℤ)
deriving DecidableEq

structure Runner where
  str : ℤ → UInt8
  key : ℤ
  lines : List RunnerLine

def strSize : ℕ := 100

/-- `"s:k:"` -/
def runnerOptions (c : UInt8) : Option Bool := if c = 115 ∨ c = 107 then some true else none

/-- One turn of the loop over the options. -/
def Runner.turn (r : Runner) : OptResult → Runner
  | .withArg c optarg =>
      if c = 107 then { r with key := atoi optarg }
      else if c = 115 then { r with str := writeString r.str 0 (CString.ofBytes optarg) }
      else r
  | .unknown c => { r with lines := r.lines ++ [.unknownOption c] }
  | .option _ => r

def Runner.turns (stack : ℤ → UInt8) (options : List OptResult) : Runner :=
  options.foldl Runner.turn ⟨stack, 0, []⟩

def syscallResult (code : ℤ) : ℤ := if -4095 ≤ code ∧ code < 0 then -1 else code

def stackAt (mapped : ℕ) (str : ℤ → UInt8) : UserMemory :=
  fun k => if k < mapped then some (str k) else none

/-- What the program prints, and what the kernel prints; `none` while the call goes on. -/
def runnerMain (fuel mapped : ℕ) (stack heap : ℤ → UInt8) (argv : List (List UInt8)) :
    Option (List RunnerLine × List CString) :=
  let r := Runner.turns stack (getopt runnerOptions none argv)
  let outcome := s2Encrypt fuel ⟨r.key, stackAt mapped r.str, stackAt mapped r.str, heap⟩
  outcome.code.map fun code =>
    (r.lines ++ [.inputString (readString r.str 0 mapped) r.key, .returnCode (syscallResult code)],
      outcome.printed)

def argOf (c : UInt8) : OptResult → Option (List UInt8)
  | .withArg d optarg => if d = c then some optarg else none
  | _ => none

/-- The arguments of an option, in their order. -/
def argsOf (c : UInt8) (options : List OptResult) : List (List UInt8) :=
  options.filterMap (argOf c)

def unknownLine : OptResult → Option RunnerLine
  | .unknown c => some (.unknownOption c)
  | _ => none

/-- The last string and the last key, if they have been given. -/
structure Runner.After (stack : ℤ → UInt8) (options : List OptResult) (r : Runner) : Prop where
  str : ∀ s, (argsOf 115 options).getLast? = some s → StringAt r.str 0 (CString.ofBytes s)
  key : r.key = ((argsOf 107 options).getLast?.map atoi).getD 0
  lines : r.lines = options.filterMap unknownLine
  outside : ∀ a, a < 0 ∨ strSize ≤ a → r.str a = stack a

section Options
variable {stack : ℤ → UInt8} {options : List OptResult} {c : UInt8}

theorem strlen_ofBytes_le (s : List UInt8) : (CString.ofBytes s).strlen ≤ s.length :=
  (List.takeWhile_sublist _).length_le

theorem argsOf_concat (c : UInt8) (options : List OptResult) (o : OptResult) :
    argsOf c (options ++ [o]) = argsOf c options ++ (argOf c o).toList := by
  rw [argsOf, List.filterMap_append]
  cases h : argOf c o with
  | none => simp [argsOf, h]
  | some s => simp [argsOf, h]

/-- What a turn does to each of the variables. -/
theorem Runner.turn_key (r : Runner) (o : OptResult) :
    (r.turn o).key = ((argOf 107 o).map atoi).getD r.key := by
  cases o with
  | option c => rfl
  | unknown c => rfl
  | withArg c optarg =>
      rw [Runner.turn, argOf]
      split_ifs <;> rfl

theorem Runner.turn_str (r : Runner) (o : OptResult) :
    (r.turn o).str =
      ((argOf 115 o).map fun s => writeString r.str 0 (CString.ofBytes s)).getD r.str := by
  cases o with
  | option c => rfl
  | unknown c => rfl
  | withArg c optarg =>
      rw [Runner.turn, argOf]
      split_ifs with hk hs
      · rw [hk] at hs
        cases hs
      · rfl
      · rfl
      · rfl

theorem Runner.turn_lines (r : Runner) (o : OptResult) :
    (r.turn o).lines = r.lines ++ (unknownLine o).toList := by
  cases o with
  | option c => exact (List.append_nil _).symm
  | unknown c => rfl
  | withArg c optarg =>
      rw [Runner.turn]
      split_ifs <;> exact (List.append_nil _).symm

theorem Runner.After.turn {r : Runner} (h : r.After stack options) {o : OptResult}
    (ho : ∀ s ∈ argOf 115 o, s.length < strSize) :
    (r.turn o).After stack (options ++ [o]) := by
  constructor
  case str =>
    intro s hs
    rw [argsOf_concat] at hs
    rw [Runner.turn_str]
    cases harg : argOf 115 o with
    | none =>
        rw [harg, Option.toList_none, List.append_nil] at hs
        exact h.str s hs
    | some t =>
        rw [harg, Option.toList_some, List.getLast?_concat] at hs
        rw [Option.some.inj hs]
        exact stringAt_writeString r.str 0 (CString.ofBytes s)
  case key =>
    rw [Runner.turn_key, argsOf_concat]
    cases argOf 107 o with
    | none => rw [Option.toList_none, List.append_nil, ← h.key]; rfl
    | some t => rw [Option.toList_some, List.getLast?_concat]; rfl
  case lines =>
    rw [Runner.turn_lines, h.lines, List.filterMap_append]
    cases hline : unknownLine o with
    | none => simp [hline]
    | some line => simp [hline]
  case outside =>
    intro a ha
    rw [Runner.turn_str, ← h.outside a ha]
    cases harg : argOf 115 o with
    | none => rfl
    | some t =>
        have hshort := strlen_ofBytes_le t
        have hlen := ho t harg
        rw [Option.map_some, Option.getD_some, writeString_apply, if_neg (by omega)]

theorem Runner.after_turns (stack : ℤ → UInt8)
    (h : ∀ s ∈ argsOf 115 options, s.length < strSize) :
    (Runner.turns stack options).After stack options := by
  induction options using List.reverseRecOn with
  | nil => exact ⟨fun s hs => absurd hs.symm (Option.some_ne_none s), rfl, rfl, fun a _ => rfl⟩
  | append_singleton options o ih =>
      rw [argsOf_concat, List.forall_mem_append] at h
      rw [Runner.turns, List.foldl_concat]
      apply (ih h.1).turn
      intro s hs
      exact h.2 s (Option.mem_toList.mpr hs)

end Options

/-- The call for a string that stays as it is, with any key. -/
theorem s2Encrypt_prints {c : Call} {s : CString} {fuel : ℕ} (hm : Holds c.measured s)
    (hc : Holds c.atCopy s) (hmax : s.strlen ≤ 255) (hfuel : s.strlen < fuel) :
    if 1 ≤ s.strlen ∧ 1 ≤ c.key ∧ c.key ≤ 5 then
      (s2Encrypt fuel c).code = some 0 ∧ (s2Encrypt fuel c).printed =
        [CString.ofBytes (s.bytes.map fun b => b + UInt8.ofInt c.key)]
    else (s2Encrypt fuel c).code = some (-EINVAL) ∧ (s2Encrypt fuel c).printed = [] := by
  split_ifs with h
  · obtain ⟨input, hinput, hnul, hcode, hprinted⟩ :=
      s2Encrypt_stable hm hc h.1 hmax h.2 hfuel
    refine ⟨hcode, ?_⟩
    rw [hprinted, readString_ofBytes]
    · intro k hk
      rw [List.length_map] at hk
      rw [zero_add]
      rcases Nat.lt_or_eq_of_le hk with hlt | rfl
      · rw [hinput k hlt, CString.byteAt, List.getD_eq_getElem _ _ hlt,
          List.getD_eq_getElem _ _ (by rwa [List.length_map]), List.getElem_map]
      · rw [List.getD_eq_default _ _ (by rw [List.length_map])]
        exact hnul
    · rwa [List.length_map]
  · obtain ⟨bytes, hbytes, hlength, hvalue⟩ := hc.copyFromUser
    have hmeasured : strnlenUser c.measured MAX = s.strlen + 1 :=
      hm.strnlenUser (by rw [MAX]; omega)
    have hfirst : copied c.heap bytes 0 = s.byteAt 0 := by
      have hzero : copied c.heap bytes ((0 : ℕ) : ℤ) = bytes.getD 0 0 :=
        copied_apply (by omega)
      rw [Nat.cast_zero] at hzero
      rw [hzero, hvalue 0 (Nat.zero_le _)]
    have hchecks : copied c.heap bytes 0 = 0 ∨ c.key < 1 ∨ c.key > 5 := by
      rw [hfirst]
      by_cases hpos : 1 ≤ s.strlen
      · right
        omega
      · left
        have hempty : s.strlen = 0 := by omega
        rw [← hempty, CString.byteAt_strlen]
    have hcall : s2Encrypt fuel c = _ := s2Encrypt_copied (by rw [hmeasured, MAX]; omega)
      (by rw [hmeasured]; exact hbytes)
    rw [encryptBuffer_rejected hchecks] at hcall
    rw [hcall]
    refine ⟨rfl, ?_⟩
    simp only [Outcome.printed, copyOps, List.cons_append, List.filterMap_cons,
      List.filterMap_append, KernelOp.text, text_accesses, List.nil_append, List.filterMap_nil]

theorem holds_stackAt {mapped : ℕ} {str : ℤ → UInt8} {s : CString} (h : StringAt str 0 s)
    (hs : s.strlen < mapped) : Holds (stackAt mapped str) s := by
  intro k hk
  have hbyte := h k hk
  rw [zero_add] at hbyte
  rw [stackAt, if_pos (by omega), hbyte]

/-- What options ask for: the last string and the last key. Every string fits its array and
every key is an `int`. -/
structure Asked (options : List OptResult) (s : List UInt8) (key : ℤ) : Prop where
  string : (argsOf 115 options).getLast? = some s
  fits : ∀ a ∈ argsOf 115 options, a.length < strSize
  ints : ∀ a ∈ argsOf 107 options, -2 ^ 31 ≤ atoi a ∧ atoi a < 2 ^ 31
  key : ((argsOf 107 options).getLast?.map atoi).getD 0 = key

instance (options : List OptResult) (s : List UInt8) (key : ℤ) :
    Decidable (Asked options s key) :=
  decidable_of_iff (_ ∧ _ ∧ _ ∧ _)
    ⟨fun h => ⟨h.1, h.2.1, h.2.2.1, h.2.2.2⟩, fun h => ⟨h.1, h.2, h.3, h.4⟩⟩

/-- The lines of the program, and the line of the kernel. -/
def output (options : List OptResult) (s : CString) (key : ℤ) :
    List RunnerLine × List CString :=
  let accepted := 1 ≤ s.strlen ∧ 1 ≤ key ∧ key ≤ 5
  (options.filterMap unknownLine ++
      [.inputString s key, .returnCode (if accepted then 0 else -1)],
    if accepted then [CString.ofBytes (s.bytes.map fun b => b + UInt8.ofInt key)] else [])

section Main
variable {s : List UInt8} {key : ℤ} {fuel mapped : ℕ}

theorem runnerMain_options {options : List OptResult} (h : Asked options s key)
    {argv : List (List UInt8)} (hargv : getopt runnerOptions none argv = options)
    (hfuel : strSize ≤ fuel) (hmapped : strSize ≤ mapped) (stack heap : ℤ → UInt8) :
    runnerMain fuel mapped stack heap argv = some (output options (CString.ofBytes s) key) := by
  have hafter := Runner.after_turns stack h.fits
  have hstr := hafter.str s h.string
  have hlen : (CString.ofBytes s).strlen < strSize :=
    Nat.lt_of_le_of_lt (strlen_ofBytes_le s) (h.fits s (List.mem_of_getLast? h.string))
  have hread := readString_of_stringAt hstr (Nat.lt_of_lt_of_le hlen hmapped)
  have hholds := holds_stackAt hstr (Nat.lt_of_lt_of_le hlen hmapped)
  let user := stackAt mapped (Runner.turns stack options).str
  have hcall := s2Encrypt_prints (c := ⟨key, user, user, heap⟩) hholds hholds
    (by rw [strSize] at hlen; omega) (Nat.lt_of_lt_of_le hlen hfuel)
  rw [runnerMain, hargv, hread, hafter.lines, hafter.key, h.key, output]
  split_ifs at hcall ⊢
  · rw [hcall.1, hcall.2]
    rfl
  · rw [hcall.1, hcall.2]
    rfl

/-- However the options are written and ordered, the last string and the last key decide the
output, and nothing outside of the array is written. -/
theorem command_line_output (typed : List TypedWord) (rest : List (List UInt8))
    (stack heap : ℤ → UInt8) (htyped : ∀ t ∈ typed, t.Proper runnerOptions)
    (hrest : rest = [] ∨ rest.head? = some [45, 45])
    (h : Asked (typed.flatMap (TypedWord.results runnerOptions)) s key)
    (hfuel : strSize ≤ fuel) (hmapped : strSize ≤ mapped) :
    let argv := typed.flatMap TypedWord.argv ++ rest
    let options := typed.flatMap (TypedWord.results runnerOptions)
    runnerMain fuel mapped stack heap argv = some (output options (CString.ofBytes s) key) ∧
      ∀ a, a < 0 ∨ strSize ≤ a →
        (Runner.turns stack (getopt runnerOptions none argv)).str a = stack a := by
  intro argv options
  have hargv := getopt_words htyped hrest
  refine ⟨runnerMain_options h hargv hfuel hmapped stack heap, ?_⟩
  rw [hargv]
  exact (Runner.after_turns stack h.fits).outside

end Main

/-- `-x -sABCD file -k 2 -s`, a second string, and a key behind `--`, which is not read. -/
theorem command_line_output_twoStrings :
    let typed : List TypedWord := [.letters [120], .attached [] 115 [65, 66, 67, 68],
      .operand [102, 105, 108, 101], .separate [] 107 [50], .separate [] 115 [253, 90]]
    runnerMain 100 100 (fun _ => 7) (fun _ => 0)
        (typed.flatMap TypedWord.argv ++ [[45, 45], [45, 107, 57]]) = some
      ([.unknownOption 120, .inputString ⟨[253, 90], by decide⟩ 2, .returnCode 0],
        [⟨[255, 92], by decide⟩]) := by
  intro typed
  have hasked : Asked (typed.flatMap (TypedWord.results runnerOptions)) [253, 90] 2 := by decide
  have h := command_line_output typed [[45, 45], [45, 107, 57]] (fun _ => 7) (fun _ => 0)
    (by decide) (.inr rfl) hasked (le_refl 100) (le_refl 100)
  rw [h.1]
  decide

end OperatingSystems.Syscall
