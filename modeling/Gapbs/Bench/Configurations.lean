import Gapbs.Bench.CommandLine

/-!
# The configurations that a command line can give

The options of an object of `CLApp` in any order and in any spelling give the object back.
-/

namespace Gapbs

open Conc Getopt

namespace CommandLine

/-! ## Numbers -/

theorem atol_bytes {x : Numeral} (h : x.Fits 64) : atol x.bytes = x.value := by
  have hstart := x.takeWhile_isSpace []
  have hread := Numeral.scanInteger_bytes h (rfl : ([] : List UInt8).takeWhile isDigit = [])
  rw [List.append_nil] at hstart hread
  have hdrop : x.bytes.dropWhile isSpace = x.bytes := by
    have hsplit := List.takeWhile_append_dropWhile (p := isSpace) (l := x.bytes)
    rwa [hstart, List.nil_append] at hsplit
  rw [atol, hdrop, hread]

theorem atol_range (text : List UInt8) : -2 ^ 63 ≤ atol text ∧ atol text < 2 ^ 63 := by
  rw [atol, InStream.scanInteger]
  dsimp only
  split_ifs <;> simp only <;> omega

theorem bmod_range (x : Int) : -2 ^ 31 ≤ x.bmod (2 ^ 32) ∧ x.bmod (2 ^ 32) < 2 ^ 31 := by
  have hlow := Int.le_bmod (x := x) (m := 2 ^ 32) (by decide)
  have hhigh := Int.bmod_lt (x := x) (m := 2 ^ 32) (by decide)
  omega

theorem bmod_of_range {x : Int} (h : -2 ^ 31 ≤ x ∧ x < 2 ^ 31) : x.bmod (2 ^ 32) = x :=
  Int.bmod_eq_of_le (by omega) (by omega)

theorem atol_ofInt {x : Int} (h : -2 ^ 63 ≤ x ∧ x < 2 ^ 63) : atol (Numeral.ofInt x).bytes = x := by
  rw [atol_bytes (Numeral.fits_ofInt h), Numeral.value_ofInt]

theorem atoi_ofInt {x : Int} (h : -2 ^ 31 ≤ x ∧ x < 2 ^ 31) : atoi (Numeral.ofInt x).bytes = x := by
  rw [atoi, atol_ofInt (by omega), bmod_of_range h]

/-- The values of a C++ `int`. -/
theorem lastInt_atoi_range {es : List (UInt8 × List UInt8)} {cs : List UInt8} {default : Int}
    (h : -2 ^ 31 ≤ default ∧ default < 2 ^ 31) :
    -2 ^ 31 ≤ lastInt es cs atoi default ∧ lastInt es cs atoi default < 2 ^ 31 := by
  unfold lastInt
  cases lastArg cs es with
  | none => exact h
  | some arg => exact bmod_range _

theorem lastInt_atol_range {es : List (UInt8 × List UInt8)} {cs : List UInt8} {default : Int}
    (h : -2 ^ 63 ≤ default ∧ default < 2 ^ 63) :
    -2 ^ 63 ≤ lastInt es cs atol default ∧ lastInt es cs atol default < 2 ^ 63 := by
  unfold lastInt
  cases lastArg cs es with
  | none => exact h
  | some arg => exact atol_range _

/-! ## The options of an object -/

def number (c : Char) (x : Int) : UInt8 × List UInt8 := (letter c, (Numeral.ofInt x).bytes)

def flagIf (c : Char) (set : Bool) : List (UInt8 × List UInt8) := if set then [(letter c, [])] else []

def CLBase.settings (cli : CLBase) : List (UInt8 × List UInt8) :=
  (letter 'f', cli.filename) :: number (if cli.uniform then 'u' else 'g') cli.scale :: number 'k' cli.degree ::
    (flagIf 's' cli.symmetrize ++ flagIf 'm' cli.inPlace)

def CLApp.settings (cli : CLApp) : List (UInt8 × List UInt8) :=
  number 'n' cli.numTrials :: number 'r' cli.startVertex ::
    (flagIf 'a' cli.doAnalysis ++ flagIf 'v' cli.doVerify ++ flagIf 'l' cli.enableLogging ++ cli.toCLBase.settings)

/-- What `ParseArgs` leaves in an object. -/
structure CLApp.Valid (cli : CLApp) : Prop where
  /-- there is a graph -/
  input : cli.filename ≠ [] ∨ cli.scale ≠ -1
  undirected : cli.scale ≠ -1 → cli.symmetrize = true
  scale : -2 ^ 31 ≤ cli.scale ∧ cli.scale < 2 ^ 31
  degree : -2 ^ 31 ≤ cli.degree ∧ cli.degree < 2 ^ 31
  numTrials : -2 ^ 31 ≤ cli.numTrials ∧ cli.numTrials < 2 ^ 31
  startVertex : -2 ^ 63 ≤ cli.startVertex ∧ cli.startVertex < 2 ^ 63

theorem mem_flagIf {c : Char} {set : Bool} {e : UInt8 × List UInt8} :
    e ∈ flagIf c set ↔ set = true ∧ e = (letter c, []) := by
  unfold flagIf
  cases set <;> simp

theorem lastInt_number {es : List (UInt8 × List UInt8)} {c : Char} {x default : Int} {cs : List UInt8}
    {read : List UInt8 → Int} (hread : read (Numeral.ofInt x).bytes = x) (hmem : number c x ∈ es)
    (hcs : letter c ∈ cs) (honce : ∀ e ∈ es, e.1 ∈ cs → e = number c x) : lastInt es cs read default = x := by
  rw [lastInt, lastArg_of_mem hmem hcs honce]
  exact hread

/-- No two of the settings are for the same member. -/
theorem CLApp.ofOptions_settings {cli : CLApp} (h : cli.Valid) {es : List (UInt8 × List UInt8)}
    (hes : ∀ e, e ∈ es ↔ e ∈ cli.settings) : CLApp.ofOptions es = cli := by
  simp only [CLApp.settings, CLBase.settings, List.mem_cons, List.mem_append, mem_flagIf] at hes
  have hfilename : lastArg [letter 'f'] es = some cli.filename := by
    refine lastArg_of_mem (e := (letter 'f', cli.filename)) ?_ (List.mem_singleton_self _) ?_
    · simp [hes]
    · cases hu : cli.uniform <;> simp +decide [hes, number, or_imp, forall_and, hu]
  have hdegree : lastInt es [letter 'k'] atoi 16 = cli.degree := by
    refine lastInt_number (c := 'k') (atoi_ofInt h.degree) ?_ (List.mem_singleton_self _) ?_
    · simp [hes]
    · cases hu : cli.uniform <;> simp +decide [hes, number, or_imp, forall_and, hu]
  have hnumtrials : lastInt es [letter 'n'] atoi 16 = cli.numTrials := by
    refine lastInt_number (c := 'n') (atoi_ofInt h.numTrials) ?_ (List.mem_singleton_self _) ?_
    · simp [hes]
    · cases hu : cli.uniform <;> simp +decide [hes, number, or_imp, forall_and, hu]
  have hstartvertex : lastInt es [letter 'r'] atol (-1) = cli.startVertex := by
    refine lastInt_number (c := 'r') (atol_ofInt h.startVertex) ?_ (List.mem_singleton_self _) ?_
    · simp [hes]
    · cases hu : cli.uniform <;> simp +decide [hes, number, or_imp, forall_and, hu]
  have hscale : lastInt es [letter 'g', letter 'u'] atoi (-1) = cli.scale := by
    refine lastInt_number (c := if cli.uniform then 'u' else 'g') (atoi_ofInt h.scale) ?_ ?_ ?_
    · simp [hes]
    · cases cli.uniform <;> simp
    · cases hu : cli.uniform <;> simp +decide [hes, number, or_imp, forall_and, hu]
  have hsymmetrize : given (letter 's') es = cli.symmetrize := by
    refine given_eq ?_
    cases hu : cli.uniform <;> simp +decide [hes, number, hu, or_and_right, exists_or]
  have huniform : given (letter 'u') es = cli.uniform := by
    refine given_eq ?_
    cases hu : cli.uniform <;> simp +decide [hes, number, hu, or_and_right, exists_or]
  have hinplace : given (letter 'm') es = cli.inPlace := by
    refine given_eq ?_
    cases hu : cli.uniform <;> simp +decide [hes, number, hu, or_and_right, exists_or]
  have hdoanalysis : given (letter 'a') es = cli.doAnalysis := by
    refine given_eq ?_
    cases hu : cli.uniform <;> simp +decide [hes, number, hu, or_and_right, exists_or]
  have hdoverify : given (letter 'v') es = cli.doVerify := by
    refine given_eq ?_
    cases hu : cli.uniform <;> simp +decide [hes, number, hu, or_and_right, exists_or]
  have henablelogging : given (letter 'l') es = cli.enableLogging := by
    refine given_eq ?_
    cases hu : cli.uniform <;> simp +decide [hes, number, hu, or_and_right, exists_or]
  rw [CLApp.ofOptions, CLBase.ofOptions, hfilename, hscale, hdegree, hnumtrials, hstartvertex, hsymmetrize,
    huniform, hinplace, hdoanalysis, hdoverify, henablelogging]
  rfl

theorem CLApp.settings_known (cli : CLApp) : ∀ e ∈ cli.settings,
    takes appArgs e.1 = some true ∨ takes appArgs e.1 = some false ∧ e.2 = [] := by
  cases hu : cli.uniform <;>
    simp +decide [CLApp.settings, CLBase.settings, number, mem_flagIf, or_imp, forall_and, hu]

theorem CLApp.settings_stops (cli : CLApp) : ∀ e ∈ cli.settings, stops e = none := by
  cases hu : cli.uniform <;>
    simp +decide [CLApp.settings, CLBase.settings, number, mem_flagIf, or_imp, forall_and, hu, stops]

/-! ## What `ParseArgs` can return -/

theorem CLApp.parseArgs_settings {cli : CLApp} (h : cli.Valid) {args : List (List UInt8)}
    {es : List (UInt8 × List UInt8)} (hes : ∀ e, e ∈ es ↔ e ∈ cli.settings)
    (hargs : Spells (options appClass.getArgs) args es) : appClass.parseArgs {} args = .ok cli := by
  have hstops : es.findSome? stops = none :=
    List.findSome?_eq_none_iff.mpr fun e he => cli.settings_stops e ((hes e).mp he)
  have hinput : ¬ (cli.filename = [] ∧ cli.scale = -1) := fun hnone =>
    h.input.elim (fun hfile => hfile hnone.1) fun hscale => hscale hnone.2
  have hcompleted : cli.toCLBase.completed = cli.toCLBase := by
    by_cases hscale : cli.scale = -1
    · exact CLBase.completed_of_eq hscale
    · rw [CLBase.completed_of_ne hscale, ← h.undirected hscale]
  have hparse := CLApp.handleArg_ofOptions.parseArgs_eq args
  rw [hargs.scan_eq, Class.meaning, hstops, CLApp.ofOptions_settings h hes] at hparse
  refine hparse.trans ?_
  show (if cli.filename = [] ∧ cli.scale = -1 then _
    else Except.ok { cli with toCLBase := cli.toCLBase.completed }) = _
  rw [if_neg hinput, hcompleted]

theorem CLApp.valid_of_parseArgs {cli : CLApp} {args : List (List UInt8)}
    (h : appClass.parseArgs {} args = .ok cli) : cli.Valid := by
  have hparse := CLApp.handleArg_ofOptions.parseArgs_eq args
  rw [show CLApp.ofOptions [] = {} from rfl, h, Class.meaning] at hparse
  generalize scan (options appClass.getArgs) none args = es at hparse
  cases hstops : es.findSome? stops with
  | some stop => rw [hstops] at hparse; cases hparse
  | none =>
    rw [hstops] at hparse
    dsimp only [Option.elim] at hparse
    split_ifs at hparse with hinput
    cases hparse
    refine ⟨?_, ?_, lastInt_atoi_range (by decide), lastInt_atoi_range (by decide),
      lastInt_atoi_range (by decide), lastInt_atol_range (by decide)⟩
    · exact not_and_or.mp hinput
    · intro hscale
      have hcompleted : (CLBase.ofOptions es).completed = _ := CLBase.completed_of_ne hscale
      exact congrArg CLBase.symmetrize hcompleted

/-- What `ParseArgs` can leave in an object of `CLApp`; the members in any order, repeated or not, and in any
spelling, give the object back. -/
theorem CLApp.configurations (cli : CLApp) :
    ((∃ args, appClass.parseArgs {} args = .ok cli) ↔ cli.Valid) ∧
      (cli.Valid → ∀ args es, (∀ e, e ∈ es ↔ e ∈ cli.settings) → Spells (options appClass.getArgs) args es →
        appClass.parseArgs {} args = .ok cli) := by
  refine ⟨⟨fun ⟨_, h⟩ => CLApp.valid_of_parseArgs h, fun h => ?_⟩, fun h _ _ => CLApp.parseArgs_settings h⟩
  exact ⟨_, CLApp.parseArgs_settings h (fun _ => Iff.rfl) (spells_separately cli.settings_known)⟩

def analysingApp : CLApp :=
  { filename := ascii "g.el", symmetrize := true, numTrials := 2, doAnalysis := true, doVerify := true }

theorem analysingApp_valid : analysingApp.Valid :=
  ⟨.inl (by decide), by decide, by decide, by decide, by decide, by decide⟩

/-- The settings of `analysingApp` in another order, one of them twice. -/
def analysingOptions : List (UInt8 × List UInt8) :=
  [(letter 'a', []), (letter 'v', []), (letter 'n', ascii "2"), (letter 'r', ascii "-1"), (letter 's', []),
    (letter 'f', ascii "g.el"), (letter 'g', ascii "-1"), (letter 'k', ascii "16"), (letter 'n', ascii "2")]

theorem mem_analysingOptions (e : UInt8 × List UInt8) : e ∈ analysingOptions ↔ e ∈ analysingApp.settings :=
  ⟨(by decide : ∀ e ∈ analysingOptions, e ∈ analysingApp.settings) e,
    (by decide : ∀ e ∈ analysingApp.settings, e ∈ analysingOptions) e⟩

/-- Letters in one word, arguments attached or not, and an operand in between. -/
theorem CLApp.configurations_clustered :
    appClass.parseArgs {} [ascii "-avn", ascii "2", ascii "-r-1", ascii "more", ascii "-sf", ascii "g.el",
      ascii "-g", ascii "-1", ascii "-k16", ascii "-n2"] = .ok analysingApp :=
  (CLApp.configurations analysingApp).2 analysingApp_valid _ analysingOptions mem_analysingOptions
    (scan_eq_iff.mp (by decide))

end CommandLine

end Gapbs
