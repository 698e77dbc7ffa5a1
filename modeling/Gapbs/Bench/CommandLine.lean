import Gapbs.Bench.Benchmark
import Gapbs.Bench.Stod
import Gapbs.Io.Printed
import Gapbs.Lib.Getopt

/-!
# The command lines of the programs

`ParseArgs` gives the options that `getopt` finds to `HandleArg`, which a class overrides for its own options
and hands on to the class that it extends for all others.
-/

namespace Gapbs.CommandLine

open Binary64 Conc Getopt

/-! ## What the standard library does -/

/-- How `getopt` reads its string: an option takes an argument if a colon follows.  No dash is in any of the
strings. -/
def takes (getArgs : List UInt8) (c : UInt8) : Option Bool :=
  if c = letter '-' ∨ c = letter ':' then none
  else match getArgs.dropWhile (· ≠ c) with
    | [] => none
    | _ :: rest => some (rest.head? = some (letter ':'))

/-- `getopt(argc, argv, getArgs)` -/
def options (getArgs : List UInt8) : Options UInt8 where
  dash := letter '-'
  unknown := letter '?'
  takes := takes getArgs
  takes_dash := if_pos (.inl rfl)

/-- `atol`, where a `long` has 64 bits -/
def atol (text : List UInt8) : Int := (InStream.scanInteger 64 (text.dropWhile isSpace)).1

/-- `atoi` converts the result of `strtol`. -/
def atoi (text : List UInt8) : Int := (atol text).bmod (2 ^ 32)

/-! ## The classes -/

/-- How `ParseArgs` does not return true: the usage is printed and the program left, there is no graph, or
an exception of `std::stod` is not caught. -/
inductive Stop where
  | usage
  | noInput
  | uncaught
deriving DecidableEq

structure CLBase where
  scale : Int := -1
  degree : Int := 16
  filename : List UInt8 := []
  symmetrize : Bool := false
  uniform : Bool := false
  inPlace : Bool := false
deriving DecidableEq

def CLBase.handleArg (cli : CLBase) (opt : UInt8) (optArg : List UInt8) : Except Stop CLBase :=
  if opt = letter 'f' then .ok { cli with filename := optArg }
  else if opt = letter 'g' then .ok { cli with scale := atoi optArg }
  else if opt = letter 'h' then .error .usage
  else if opt = letter 'k' then .ok { cli with degree := atoi optArg }
  else if opt = letter 's' then .ok { cli with symmetrize := true }
  else if opt = letter 'u' then .ok { cli with uniform := true, scale := atoi optArg }
  else if opt = letter 'm' then .ok { cli with inPlace := true }
  else .ok cli

structure CLApp extends CLBase, toTrials : Bench.CLApp where
  doAnalysis := false
  numTrials := 16
  startVertex := -1
  doVerify := false
  enableLogging : Bool := false

/-- A part of an object that another class handles. -/
def lift {C D : Type} (l : Lens C D) (r : Except Stop D) (cli : C) : Except Stop C :=
  r.map fun d => l.set d cli

def CLApp.baseLens : Lens CLApp CLBase where
  get cli := cli.toCLBase
  set base cli := { cli with toCLBase := base }
  get_set _ _ := rfl
  set_get _ := rfl
  set_set _ _ _ := rfl

/-- The part of `CLBase` in a class that extends `CLApp`. -/
def throughApp {C : Type} (l : Lens C CLApp) : Lens C CLBase where
  get cli := (l.get cli).toCLBase
  set base cli := l.set { l.get cli with toCLBase := base } cli
  get_set base cli := by rw [l.get_set]
  set_get cli := l.set_get cli
  set_set a b cli := by rw [l.get_set, l.set_set]

def CLApp.handleArg (cli : CLApp) (opt : UInt8) (optArg : List UInt8) : Except Stop CLApp :=
  if opt = letter 'a' then .ok { cli with doAnalysis := true }
  else if opt = letter 'n' then .ok { cli with numTrials := atoi optArg }
  else if opt = letter 'r' then .ok { cli with startVertex := atol optArg }
  else if opt = letter 'v' then .ok { cli with doVerify := true }
  else if opt = letter 'l' then .ok { cli with enableLogging := true }
  else lift CLApp.baseLens (cli.toCLBase.handleArg opt optArg) cli

structure CLIterApp extends CLApp where
  numIters : Int

def CLIterApp.appLens : Lens CLIterApp CLApp where
  get cli := cli.toCLApp
  set app cli := { cli with toCLApp := app }
  get_set _ _ := rfl
  set_get _ := rfl
  set_set _ _ _ := rfl

def CLIterApp.handleArg (cli : CLIterApp) (opt : UInt8) (optArg : List UInt8) : Except Stop CLIterApp :=
  if opt = letter 'i' then .ok { cli with numIters := atoi optArg }
  else lift CLIterApp.appLens (cli.toCLApp.handleArg opt optArg) cli

structure CLPageRank extends CLApp where
  maxIters : Int
  tolerance : Double

def CLPageRank.appLens : Lens CLPageRank CLApp where
  get cli := cli.toCLApp
  set app cli := { cli with toCLApp := app }
  get_set _ _ := rfl
  set_get _ := rfl
  set_set _ _ _ := rfl

def CLPageRank.handleArg (cli : CLPageRank) (opt : UInt8) (optArg : List UInt8) : Except Stop CLPageRank :=
  if opt = letter 'i' then .ok { cli with maxIters := atoi optArg }
  else if opt = letter 't' then
    match stod optArg with
    | some tolerance => .ok { cli with tolerance }
    | none => .error .uncaught
  else lift CLPageRank.appLens (cli.toCLApp.handleArg opt optArg) cli

structure CLDelta extends CLApp where
  delta : Int := 1

def CLDelta.appLens : Lens CLDelta CLApp where
  get cli := cli.toCLApp
  set app cli := { cli with toCLApp := app }
  get_set _ _ := rfl
  set_get _ := rfl
  set_set _ _ _ := rfl

/-- Weights have 32 bits. -/
def CLDelta.handleArg (cli : CLDelta) (opt : UInt8) (optArg : List UInt8) : Except Stop CLDelta :=
  if opt = letter 'd' then .ok { cli with delta := (atol optArg).bmod (2 ^ 32) }
  else lift CLDelta.appLens (cli.toCLApp.handleArg opt optArg) cli

structure CLConvert extends CLBase where
  outFilename : List UInt8 := []
  outWeighted : Bool := false
  outEl : Bool := false
  outSg : Bool := false

def CLConvert.baseLens : Lens CLConvert CLBase where
  get cli := cli.toCLBase
  set base cli := { cli with toCLBase := base }
  get_set _ _ := rfl
  set_get _ := rfl
  set_set _ _ _ := rfl

def CLConvert.handleArg (cli : CLConvert) (opt : UInt8) (optArg : List UInt8) : Except Stop CLConvert :=
  if opt = letter 'b' then .ok { cli with outSg := true, outFilename := optArg }
  else if opt = letter 'e' then .ok { cli with outEl := true, outFilename := optArg }
  else if opt = letter 'w' then .ok { cli with outWeighted := true }
  else lift CLConvert.baseLens (cli.toCLBase.handleArg opt optArg) cli

/-! ## `ParseArgs` -/

/-- What a class adds to `CLBase`. -/
structure Class (C : Type) where
  /-- `get_args_` -/
  getArgs : List UInt8
  handleArg : C → UInt8 → List UInt8 → Except Stop C
  base : Lens C CLBase

/-- `ParseArgs` of an object; `args` are the words behind the name of the program. -/
def Class.parseArgs {C : Type} (c : Class C) (cli : C) (args : List (List UInt8)) : Except Stop C := do
  let cli ← (scan (options c.getArgs) none args).foldlM (fun cli e => c.handleArg cli e.1 e.2) cli
  let base := c.base.get cli
  if base.filename = [] ∧ base.scale = -1 then .error .noInput
  else if base.scale ≠ -1 then .ok (c.base.set { base with symmetrize := true } cli)
  else .ok cli

def baseArgs : List UInt8 := ascii "f:g:hk:su:m"

def appArgs : List UInt8 := baseArgs ++ ascii "an:r:vl"

def appClass : Class CLApp where
  getArgs := appArgs
  handleArg := CLApp.handleArg
  base := CLApp.baseLens

def iterClass : Class CLIterApp where
  getArgs := appArgs ++ ascii "i:"
  handleArg := CLIterApp.handleArg
  base := throughApp CLIterApp.appLens

def pageRankClass : Class CLPageRank where
  getArgs := appArgs ++ ascii "i:t:"
  handleArg := CLPageRank.handleArg
  base := throughApp CLPageRank.appLens

def deltaClass : Class CLDelta where
  getArgs := appArgs ++ ascii "d:"
  handleArg := CLDelta.handleArg
  base := throughApp CLDelta.appLens

def convertClass : Class CLConvert where
  getArgs := baseArgs ++ ascii "e:b:w"
  handleArg := CLConvert.handleArg
  base := CLConvert.baseLens

/-! ## What the options say

Of the options that set the same member the last one wins, wherever they stand; one that is not known changes
nothing. -/

section

variable (es : List (UInt8 × List UInt8))

/-- The last argument as a number. -/
def lastInt (cs : List UInt8) (read : List UInt8 → Int) (default : Int) : Int :=
  ((lastArg cs es).map read).getD default

def CLBase.ofOptions : CLBase where
  scale := lastInt es [letter 'g', letter 'u'] atoi (-1)
  degree := lastInt es [letter 'k'] atoi 16
  filename := (lastArg [letter 'f'] es).getD []
  symmetrize := given (letter 's') es
  uniform := given (letter 'u') es
  inPlace := given (letter 'm') es

def CLApp.ofOptions : CLApp where
  toCLBase := CLBase.ofOptions es
  doAnalysis := given (letter 'a') es
  numTrials := lastInt es [letter 'n'] atoi 16
  startVertex := lastInt es [letter 'r'] atol (-1)
  doVerify := given (letter 'v') es
  enableLogging := given (letter 'l') es

def CLIterApp.ofOptions (numIters : Int) : CLIterApp where
  toCLApp := CLApp.ofOptions es
  numIters := lastInt es [letter 'i'] atoi numIters

def CLPageRank.ofOptions (tolerance : Double) (maxIters : Int) : CLPageRank where
  toCLApp := CLApp.ofOptions es
  maxIters := lastInt es [letter 'i'] atoi maxIters
  tolerance := ((lastArg [letter 't'] es).bind stod).getD tolerance

def CLDelta.ofOptions : CLDelta where
  toCLApp := CLApp.ofOptions es
  delta := lastInt es [letter 'd'] (fun text => (atol text).bmod (2 ^ 32)) 1

def CLConvert.ofOptions : CLConvert where
  toCLBase := CLBase.ofOptions es
  outFilename := (lastArg [letter 'b', letter 'e'] es).getD []
  outWeighted := given (letter 'w') es
  outEl := given (letter 'e') es
  outSg := given (letter 'b') es

end

/-- Where `HandleArg` stops. -/
def stops (e : UInt8 × List UInt8) : Option Stop := if e.1 = letter 'h' then some .usage else none

def stopsOrThrows (e : UInt8 × List UInt8) : Option Stop :=
  if e.1 = letter 't' ∧ stod e.2 = none then some .uncaught else stops e

/-- The options stand for `ofOptions`, unless one of them stops the program. -/
def Class.Reads {C : Type} (c : Class C) (stops : UInt8 × List UInt8 → Option Stop)
    (ofOptions : List (UInt8 × List UInt8) → C) : Prop :=
  ∀ es e, c.handleArg (ofOptions es) e.1 e.2 = (stops e).elim (.ok (ofOptions (es ++ [e]))) .error

theorem lastInt_concat (es : List (UInt8 × List UInt8)) (e : UInt8 × List UInt8) (cs : List UInt8)
    (read : List UInt8 → Int) (default : Int) :
    lastInt (es ++ [e]) cs read default = if e.1 ∈ cs then read e.2 else lastInt es cs read default := by
  unfold lastInt
  rw [lastArg_concat]
  split <;> rfl

/-- What the class that is extended does with an option. -/
theorem lift_eq {C D : Type} (l : Lens C D) {r : Except Stop D} {st : Option Stop} {d : D}
    (h : r = st.elim (.ok d) .error) (cli : C) : lift l r cli = st.elim (.ok (l.set d cli)) .error := by
  subst h
  cases st <;> rfl

theorem CLBase.handleArg_ofOptions (es : List (UInt8 × List UInt8)) (e : UInt8 × List UInt8) :
    (CLBase.ofOptions es).handleArg e.1 e.2 = (stops e).elim (.ok (CLBase.ofOptions (es ++ [e]))) .error := by
  obtain ⟨opt, arg⟩ := e
  unfold CLBase.handleArg CLBase.ofOptions stops
  simp only [lastInt_concat, lastArg_concat, given_concat]
  split_ifs <;> simp_all +decide

/-- The options of `CLBase` other than the usage. -/
def baseLetters : List UInt8 := [letter 'f', letter 'g', letter 'k', letter 's', letter 'u', letter 'm']

/-- The options that `CLApp` adds. -/
def appLetters : List UInt8 := [letter 'a', letter 'n', letter 'r', letter 'v', letter 'l']

theorem CLBase.ofOptions_concat (es : List (UInt8 × List UInt8)) {e : UInt8 × List UInt8}
    (h : e.1 ∉ baseLetters) : CLBase.ofOptions (es ++ [e]) = CLBase.ofOptions es := by
  simp only [baseLetters, List.mem_cons, List.not_mem_nil, or_false, not_or] at h
  simp [CLBase.ofOptions, lastInt_concat, h]

theorem CLApp.handleArg_ofOptions : appClass.Reads stops CLApp.ofOptions := by
  rintro es ⟨opt, arg⟩
  show (CLApp.ofOptions es).handleArg opt arg = _
  by_cases hown : opt ∈ appLetters
  · have hbase : opt ∉ baseLetters := (show ∀ c ∈ appLetters, c ∉ baseLetters by decide) opt hown
    unfold CLApp.ofOptions
    rw [CLBase.ofOptions_concat es hbase]
    simp only [appLetters, List.mem_cons, List.not_mem_nil, or_false] at hown
    rcases hown with rfl | rfl | rfl | rfl | rfl <;> simp +decide [CLApp.handleArg, lastInt_concat, stops]
  · simp only [appLetters, List.mem_cons, List.not_mem_nil, or_false, not_or] at hown
    obtain ⟨ha, hn, hr, hv, hl⟩ := hown
    rw [CLApp.handleArg, if_neg ha, if_neg hn, if_neg hr, if_neg hv, if_neg hl]
    refine (lift_eq _ (CLBase.handleArg_ofOptions es (opt, arg)) _).trans ?_
    simp [CLApp.ofOptions, CLApp.baseLens, lastInt_concat, ha, hn, hr, hv, hl]

theorem CLApp.ofOptions_concat (es : List (UInt8 × List UInt8)) {e : UInt8 × List UInt8}
    (hbase : e.1 ∉ baseLetters) (happ : e.1 ∉ appLetters) :
    CLApp.ofOptions (es ++ [e]) = CLApp.ofOptions es := by
  simp only [appLetters, List.mem_cons, List.not_mem_nil, or_false, not_or] at happ
  unfold CLApp.ofOptions
  rw [CLBase.ofOptions_concat es hbase]
  simp [lastInt_concat, happ]

theorem CLIterApp.handleArg_ofOptions (numIters : Int) :
    iterClass.Reads stops fun es => CLIterApp.ofOptions es numIters := by
  rintro es ⟨opt, arg⟩
  show (CLIterApp.ofOptions es numIters).handleArg opt arg = _
  by_cases hi : opt = letter 'i'
  · subst hi
    have happ : CLApp.ofOptions (es ++ [(letter 'i', arg)]) = CLApp.ofOptions es :=
      CLApp.ofOptions_concat es (show letter 'i' ∉ baseLetters by decide)
        (show letter 'i' ∉ appLetters by decide)
    simp +decide [CLIterApp.handleArg, CLIterApp.ofOptions, happ, lastInt_concat, stops]
  · rw [CLIterApp.handleArg, if_neg hi]
    refine (lift_eq _ (CLApp.handleArg_ofOptions es (opt, arg)) _).trans ?_
    simp [CLIterApp.ofOptions, CLIterApp.appLens, lastInt_concat, hi]

theorem CLPageRank.handleArg_ofOptions (tolerance : Double) (maxIters : Int) :
    pageRankClass.Reads stopsOrThrows fun es => CLPageRank.ofOptions es tolerance maxIters := by
  rintro es ⟨opt, arg⟩
  show (CLPageRank.ofOptions es tolerance maxIters).handleArg opt arg = _
  by_cases hi : opt = letter 'i'
  · subst hi
    have happ : CLApp.ofOptions (es ++ [(letter 'i', arg)]) = CLApp.ofOptions es :=
      CLApp.ofOptions_concat es (show letter 'i' ∉ baseLetters by decide)
        (show letter 'i' ∉ appLetters by decide)
    simp +decide [CLPageRank.handleArg, CLPageRank.ofOptions, happ, lastInt_concat, stopsOrThrows, stops]
  · by_cases ht : opt = letter 't'
    · subst ht
      have happ : CLApp.ofOptions (es ++ [(letter 't', arg)]) = CLApp.ofOptions es :=
        CLApp.ofOptions_concat es (show letter 't' ∉ baseLetters by decide)
          (show letter 't' ∉ appLetters by decide)
      cases hstod : stod arg <;>
        simp +decide [CLPageRank.handleArg, CLPageRank.ofOptions, happ, lastInt_concat, stopsOrThrows, stops,
          hstod]
    · rw [CLPageRank.handleArg, if_neg hi, if_neg ht, stopsOrThrows, if_neg fun h => ht h.1]
      refine (lift_eq _ (CLApp.handleArg_ofOptions es (opt, arg)) _).trans ?_
      simp [CLPageRank.ofOptions, CLPageRank.appLens, lastInt_concat, hi, ht]

theorem CLDelta.handleArg_ofOptions : deltaClass.Reads stops CLDelta.ofOptions := by
  rintro es ⟨opt, arg⟩
  show (CLDelta.ofOptions es).handleArg opt arg = _
  by_cases hd : opt = letter 'd'
  · subst hd
    have happ : CLApp.ofOptions (es ++ [(letter 'd', arg)]) = CLApp.ofOptions es :=
      CLApp.ofOptions_concat es (show letter 'd' ∉ baseLetters by decide)
        (show letter 'd' ∉ appLetters by decide)
    simp +decide [CLDelta.handleArg, CLDelta.ofOptions, happ, lastInt_concat, stops]
  · rw [CLDelta.handleArg, if_neg hd]
    refine (lift_eq _ (CLApp.handleArg_ofOptions es (opt, arg)) _).trans ?_
    simp [CLDelta.ofOptions, CLDelta.appLens, lastInt_concat, hd]

theorem CLConvert.handleArg_ofOptions : convertClass.Reads stops CLConvert.ofOptions := by
  rintro es ⟨opt, arg⟩
  show (CLConvert.ofOptions es).handleArg opt arg = _
  by_cases hown : opt ∈ [letter 'b', letter 'e', letter 'w']
  · have hbase : opt ∉ baseLetters :=
      (show ∀ c ∈ [letter 'b', letter 'e', letter 'w'], c ∉ baseLetters by decide) opt hown
    unfold CLConvert.ofOptions
    rw [CLBase.ofOptions_concat es hbase]
    simp only [List.mem_cons, List.not_mem_nil, or_false] at hown
    rcases hown with rfl | rfl | rfl <;> simp +decide [CLConvert.handleArg, stops]
  · simp only [List.mem_cons, List.not_mem_nil, or_false, not_or] at hown
    obtain ⟨hb, he, hw⟩ := hown
    rw [CLConvert.handleArg, if_neg hb, if_neg he, if_neg hw]
    refine (lift_eq _ (CLBase.handleArg_ofOptions es (opt, arg)) _).trans ?_
    simp [CLConvert.ofOptions, CLConvert.baseLens, hb, he, hw]

/-! ## `ParseArgs` and the options -/

section

variable {C : Type} {c : Class C} {stops : UInt8 × List UInt8 → Option Stop}
  {ofOptions : List (UInt8 × List UInt8) → C}

/-- A generated graph is always undirected. -/
def CLBase.completed (base : CLBase) : CLBase :=
  { base with symmetrize := base.symmetrize || decide (base.scale ≠ -1) }

theorem CLBase.completed_of_eq {base : CLBase} (h : base.scale = -1) : base.completed = base := by
  cases base
  simp_all [CLBase.completed]

theorem CLBase.completed_of_ne {base : CLBase} (h : base.scale ≠ -1) :
    base.completed = { base with symmetrize := true } := by
  simp [CLBase.completed, h]

/-- What `ParseArgs` makes of the options: the first one that stops the program does, and without a graph it
returns false. -/
def Class.meaning (c : Class C) (stops : UInt8 × List UInt8 → Option Stop)
    (ofOptions : List (UInt8 × List UInt8) → C) (es : List (UInt8 × List UInt8)) : Except Stop C :=
  (es.findSome? stops).elim
    (let base := c.base.get (ofOptions es)
     if base.filename = [] ∧ base.scale = -1 then .error .noInput
     else .ok (c.base.set base.completed (ofOptions es)))
    .error

theorem Class.Reads.foldlM (h : c.Reads stops ofOptions) (es es' : List (UInt8 × List UInt8)) :
    es.foldlM (fun cli e => c.handleArg cli e.1 e.2) (ofOptions es') =
      (es.findSome? stops).elim (.ok (ofOptions (es' ++ es))) .error := by
  induction es generalizing es' with
  | nil => rw [List.append_nil]; rfl
  | cons e es ih =>
    rw [List.foldlM_cons, h es' e, List.findSome?_cons]
    cases hstop : stops e with
    | some stop => rfl
    | none =>
      have hrest := ih (es' ++ [e])
      rwa [List.append_assoc] at hrest

theorem Class.Reads.parseArgs_eq (h : c.Reads stops ofOptions) (args : List (List UInt8)) :
    c.parseArgs (ofOptions []) args = c.meaning stops ofOptions (scan (options c.getArgs) none args) := by
  rw [Class.parseArgs, h.foldlM, List.nil_append, Class.meaning]
  cases (scan (options c.getArgs) none args).findSome? stops with
  | some stop => rfl
  | none =>
    show (if _ then _ else _) = (if _ then _ else _)
    split_ifs with hinput hscale
    · rfl
    · rw [CLBase.completed_of_ne hscale]
    · rw [CLBase.completed_of_eq (not_not.mp hscale), c.base.set_get]

/-- The words are a spelling of certain options and of no others, and these decide the object. -/
def Class.Parses (c : Class C) (cli : C) (stops : UInt8 × List UInt8 → Option Stop)
    (ofOptions : List (UInt8 × List UInt8) → C) (args : List (List UInt8)) : Prop :=
  ∃ es, (∀ es', Spells (options c.getArgs) args es' ↔ es' = es) ∧
    c.parseArgs cli args = c.meaning stops ofOptions es

theorem Class.Reads.parses (h : c.Reads stops ofOptions) (args : List (List UInt8)) :
    c.Parses (ofOptions []) stops ofOptions args :=
  ⟨_, fun _ => scan_eq_iff.symm.trans eq_comm, h.parseArgs_eq args⟩

end

/-- On every command line, `ParseArgs` of each class finds the only options that the words spell.  The first `h`,
or the first argument that is no number, stops it; otherwise the last option of those for a member decides it,
whatever stands between, and a scale makes the graph undirected. -/
theorem parseArgs_correct (numIters maxIters : Int) (tolerance : Double) (args : List (List UInt8)) :
    appClass.Parses {} stops CLApp.ofOptions args ∧
      iterClass.Parses { numIters } stops (fun es => CLIterApp.ofOptions es numIters) args ∧
      pageRankClass.Parses { maxIters, tolerance } stopsOrThrows
        (fun es => CLPageRank.ofOptions es tolerance maxIters) args ∧
      deltaClass.Parses {} stops CLDelta.ofOptions args ∧
      convertClass.Parses {} stops CLConvert.ofOptions args :=
  ⟨CLApp.handleArg_ofOptions.parses args, (CLIterApp.handleArg_ofOptions numIters).parses args,
    (CLPageRank.handleArg_ofOptions tolerance maxIters).parses args, CLDelta.handleArg_ofOptions.parses args,
    CLConvert.handleArg_ofOptions.parses args⟩

end Gapbs.CommandLine
