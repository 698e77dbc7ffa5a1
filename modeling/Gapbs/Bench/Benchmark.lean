import Gapbs.Bench.SourcePicker
import Gapbs.Conc.Compute
import Gapbs.Conc.Lens

/-!
# `BenchmarkKernel`

The loop over the trials that the programs have in common.  Every trial runs the kernel on new arrays
and hands its result to the verifier; with `-v` the verdict on each trial is printed.  The kernel and
the verifier of a search draw their sources from pickers of their own.
-/

namespace Gapbs.Bench

open Conc Gen

/-- What is printed: by the function for `-a`, and `PASS` or `FAIL`. -/
inductive Line (A : Type) where
  | stats (a : A)
  | verification (pass : Bool)

/-- The options of `CLApp` that decide what is run. -/
structure CLApp where
  doAnalysis : Bool
  numTrials : ℤ
  startVertex : ℤ
  doVerify : Bool

section Kernel

variable {S R A : Type}

/-- `-a` asks for an analysis after the last trial. -/
def analyse (cli : CLApp) (stats : Prog S A) (iter : ℕ) (printed : List (Line A)) :
    Prog S (List (Line A)) := do
  if cli.doAnalysis ∧ iter + 1 = cli.numTrials then
    let a ← stats
    return printed ++ [.stats a]
  else return printed

/-- One trial. -/
def trial (cli : CLApp) (kernel : Prog S R) (stats : R → Prog S A) (verify : R → Prog S Bool) (iter : ℕ)
    (printed : List (Line A)) : Prog S (List (Line A)) := do
  let result ← kernel
  let printed ← analyse cli (stats result) iter printed
  if cli.doVerify then
    let pass ← verify result
    return printed ++ [.verification pass]
  else return printed

/-- `BenchmarkKernel`, apart from the times that it prints. -/
def benchmarkKernel (cli : CLApp) (kernel : Prog S R) (stats : R → Prog S A) (verify : R → Prog S Bool) :
    Prog S (List (Line A)) :=
  .forEach (List.range cli.numTrials.toNat) [] (trial cli kernel stats verify)

/-- The lines of a trial that passes; `report` is what the analysis after the last one prints. -/
def passedLines (cli : CLApp) (report : List (Line A)) (iter : ℕ) : List (Line A) :=
  (if (iter : ℤ) + 1 = cli.numTrials then report else []) ++ if cli.doVerify then [.verification true] else []

/-- What is printed by the first `k` trials when all of them pass, with statistics for which `P` holds. -/
def PassedFirst (cli : CLApp) (P : A → Prop) (k : ℕ) (printed : List (Line A)) : Prop :=
  ∃ report, (if cli.doAnalysis ∧ 0 < k ∧ (k : ℤ) = cli.numTrials then ∃ a, P a ∧ report = [.stats a]
    else report = []) ∧ printed = (List.range k).flatMap (passedLines cli report)

def AllPassed (cli : CLApp) (P : A → Prop) (printed : List (Line A)) : Prop :=
  PassedFirst cli P cli.numTrials.toNat printed

/-- Before the last trial nothing is reported. -/
theorem PassedFirst.eq {cli : CLApp} {P : A → Prop} {k : ℕ} (hk : k < cli.numTrials.toNat)
    {printed : List (Line A)} (h : PassedFirst cli P k printed) (report : List (Line A)) :
    printed = (List.range k).flatMap (passedLines cli report) := by
  obtain ⟨report', -, rfl⟩ := h
  refine List.flatMap_congr fun iter hiter => ?_
  have hlt := List.mem_range.mp hiter
  have hnot : ¬ (iter + 1 : ℤ) = cli.numTrials := by omega
  simp [passedLines, hnot]

theorem eq_range_of_split {m i : ℕ} {pre post : List ℕ} (h : List.range m = pre ++ i :: post) :
    i < m ∧ pre = List.range i := by
  have hlength := congrArg List.length h
  rw [List.length_range, List.length_append, List.length_cons] at hlength
  have hget : (List.range m)[pre.length]? = some i := by rw [h]; simp
  rw [List.getElem?_range (by omega)] at hget
  obtain rfl := Option.some.inj hget
  have htake : (List.range m).take pre.length = pre := by rw [h]; simp
  rw [List.take_range, Nat.min_eq_left (by omega)] at htake
  exact ⟨by omega, htake.symm⟩

theorem analyse_solo {cli : CLApp} {stats : Prog S A} {P : A → Prop} {s : S}
    (hstats : Solo stats s fun a s' => P a ∧ s' = s) (iter : ℕ) (printed : List (Line A)) :
    Solo (analyse cli stats iter printed) s fun printed' s' => s' = s ∧ ∃ report,
      (if cli.doAnalysis ∧ (iter : ℤ) + 1 = cli.numTrials then ∃ a, P a ∧ report = [.stats a]
        else report = []) ∧ printed' = printed ++ report := by
  unfold analyse
  split
  · apply Solo.bind
    apply hstats.mono
    rintro a _ ⟨ha, rfl⟩
    exact Solo.ret ⟨rfl, _, ⟨a, ha, rfl⟩, rfl⟩
  · exact Solo.ret ⟨rfl, [], rfl, (List.append_nil _).symm⟩

theorem trial_solo {cli : CLApp} {kernel : Prog S R} {stats : R → Prog S A} {verify : R → Prog S Bool}
    {I : S → Prop} {Made : R → S → Prop} {P : A → Prop} {s : S} (hs : I s)
    (hkernel : ∀ s, I s → Solo kernel s Made)
    (hstats : ∀ r s, Made r s → Solo (stats r) s fun a s' => P a ∧ s' = s)
    (hverify : cli.doVerify = true → ∀ r s, Made r s → Solo (verify r) s fun pass s' => pass = true ∧ I s')
    (hskip : cli.doVerify = false → ∀ r s, Made r s → I s) {iter : ℕ} (hiter : iter < cli.numTrials.toNat)
    {printed : List (Line A)} (hprinted : PassedFirst cli P iter printed) :
    Solo (trial cli kernel stats verify iter printed) s fun printed' s' =>
      I s' ∧ PassedFirst cli P (iter + 1) printed' := by
  apply Solo.bind
  apply (hkernel s hs).mono
  intro r s' hr
  apply Solo.bind
  apply (analyse_solo (hstats r s' hr) iter printed).mono
  rintro lines _ ⟨rfl, report, hreport, rfl⟩
  -- a trial that is not the last one reports nothing
  have hlines : report = if (iter : ℤ) + 1 = cli.numTrials then report else [] := by
    split
    · rfl
    · next hlast => rwa [if_neg fun h => hlast h.2] at hreport
  have hpassed : PassedFirst cli P (iter + 1)
      (printed ++ report ++ if cli.doVerify then [.verification true] else []) := by
    refine ⟨report, by simpa using hreport, ?_⟩
    rw [List.range_succ, List.flatMap_append, List.flatMap_singleton, hprinted.eq hiter report, passedLines,
      ← hlines, List.append_assoc]
  cases hv : cli.doVerify with
  | true =>
    rw [hv] at hpassed
    simp only [if_true]
    apply Solo.bind
    apply (hverify hv r _ hr).mono
    rintro pass t ⟨rfl, ht⟩
    exact Solo.ret ⟨ht, hpassed⟩
  | false =>
    rw [hv, if_neg Bool.false_ne_true, List.append_nil] at hpassed
    simp only [Bool.false_eq_true, if_false]
    exact Solo.ret ⟨hskip hv r _ hr, hpassed⟩

theorem benchmarkKernel_solo {cli : CLApp} {kernel : Prog S R} {stats : R → Prog S A}
    {verify : R → Prog S Bool} (I : S → Prop) (Made : R → S → Prop) {P : A → Prop} {s : S} (hs : I s)
    (hkernel : ∀ s, I s → Solo kernel s Made)
    (hstats : ∀ r s, Made r s → Solo (stats r) s fun a s' => P a ∧ s' = s)
    (hverify : cli.doVerify = true → ∀ r s, Made r s → Solo (verify r) s fun pass s' => pass = true ∧ I s')
    (hskip : cli.doVerify = false → ∀ r s, Made r s → I s) :
    Solo (benchmarkKernel cli kernel stats verify) s fun printed _ => AllPassed cli P printed := by
  apply (Solo.forEach (fun done printed s => I s ∧ PassedFirst cli P done.length printed)
    ⟨hs, [], by simp, rfl⟩ ?_).mono
  · rintro printed _ ⟨-, hprinted⟩
    rwa [List.length_range] at hprinted
  · rintro pre iter post printed t hsplit ⟨ht, hprinted⟩
    obtain ⟨hlt, rfl⟩ := eq_range_of_split hsplit
    rw [List.length_range] at hprinted
    apply (trial_solo ht hkernel hstats hverify hskip hlt hprinted).mono
    rintro _ t' ⟨ht', hprinted'⟩
    exact ⟨ht', by simpa using hprinted'⟩

end Kernel

/-! ## Kernels with sources -/

/-- The memory of a program: the engines of the pickers `sp` and `vsp`, the arrays of the kernel and the
local variables of the verifier. -/
structure TrialMem (E M V : Type) where
  sp : E
  vsp : E
  work : M
  check : V

namespace TrialMem

variable {E M V : Type}

def spLens : Lens (TrialMem E M V) E where
  get s := s.sp
  set e s := { s with sp := e }
  get_set _ _ := rfl
  set_get _ := rfl
  set_set _ _ _ := rfl

def vspLens : Lens (TrialMem E M V) E where
  get s := s.vsp
  set e s := { s with vsp := e }
  get_set _ _ := rfl
  set_get _ := rfl
  set_set _ _ _ := rfl

def workLens : Lens (TrialMem E M V) M where
  get s := s.work
  set m s := { s with work := m }
  get_set _ _ := rfl
  set_get _ := rfl
  set_set _ _ _ := rfl

def checkLens : Lens (TrialMem E M V) V where
  get s := s.check
  set v s := { s with check := v }
  get_set _ _ := rfl
  set_get _ := rfl
  set_set _ _ _ := rfl

end TrialMem

section Search

variable {S E M V X R A : Type}

/-- A picker moves its engine on; what is no vertex must not be used. -/
def pickBy (draw : E → Fueled (Option X × E)) (l : Lens S E) : Prog S X := do
  let e ← .load l.get
  let r ← .compute (draw e)
  .store fun s => l.set r.2 s
  match r.1 with
  | some x => return x
  | none => .fail

/-- New arrays may hold anything. -/
def allocate (l : Lens S M) (entry : M → M) : Prog S Unit := do
  let m ← .load l.get
  let m' ← .pick m
  .store fun s => l.set (entry m') s

/-- A call, with arrays of its own. -/
def onNew (l : Lens S M) (entry : M → M) (p : Prog M R) : Prog S R := do
  allocate l entry
  p.zoom l

/-- The kernel as it is bound to `sp` in `main`. -/
def boundKernel (draw : E → Fueled (Option X × E)) (entry : M → M) (kernel : X → Prog M R) :
    Prog (TrialMem E M V) R := do
  let x ← pickBy draw TrialMem.spLens
  onNew TrialMem.workLens entry (kernel x)

/-- The verifier as it is bound to `vsp` in `main`. -/
def boundVerifier (draw : E → Fueled (Option X × E)) (verify : X → R → Prog V Bool) (result : R) :
    Prog (TrialMem E M V) Bool := do
  let x ← pickBy draw TrialMem.vspLens
  onNew TrialMem.checkLens id (verify x result)

theorem pickBy_solo {draw : E → Fueled (Option X × E)} {l : Lens S E} {s : S} {x : X} {e : E}
    (h : (draw (l.get s)).Returns (some x, e)) :
    Solo (pickBy draw l) s fun y s' => y = x ∧ s' = l.set e s := by
  apply Solo.load_bind
  refine WP.compute_bind (P := fun σ => σ = (s, ())) h rfl (stable_false _) ?_
  rintro _ rfl
  have hstore : Solo ((Prog.store fun s => l.set e s).bind fun _ => Prog.ret x) s
      fun y s' => y = x ∧ s' = l.set e s := Solo.store_bind (Solo.ret ⟨rfl, rfl⟩)
  exact hstore

theorem onNew_solo {l : Lens S M} {entry : M → M} {p : Prog M R} {s : S} {Q : R → Prop}
    (h : ∀ m, Solo p (entry m) fun r _ => Q r) :
    Solo (onNew l entry p) s fun r s' => Q r ∧ ∃ m, s' = l.set m s := by
  apply Solo.bind
  apply Solo.load_bind
  apply Solo.pick_bind
  intro m
  apply Solo.store
  apply (Solo.zoom (s := l.set (entry m) s) (Q := fun r _ => Q r) (by rw [l.get_set]; exact h m)).mono
  rintro r s' ⟨hr, hrest⟩
  rw [l.set_set] at hrest
  exact ⟨hr, _, hrest⟩

/-- The two pickers stand at the same place in front of every trial, so the verifier is asked about
the source that the kernel has started from, and every trial passes. -/
theorem search_solo {cli : CLApp} {draw : E → Fueled (Option X × E)} {entry : M → M}
    {kernel : X → Prog M R} {stats : R → Prog (TrialMem E M V) A} {verify : X → R → Prog V Bool}
    (J : E → Prop) (Ok : X → Prop) (Spec : X → R → Prop) {P : A → Prop}
    (hdraw : ∀ e, J e → ∃ x e', (draw e).Returns (some x, e') ∧ Ok x ∧ J e')
    (hkernel : ∀ x m, Ok x → Solo (kernel x) (entry m) fun r _ => Spec x r)
    (hstats : ∀ x r s, Ok x → Spec x r → Solo (stats r) s fun a s' => P a ∧ s' = s)
    (hverify : ∀ x r v, Ok x → Spec x r → Solo (verify x r) v fun pass _ => pass = true)
    {s : TrialMem E M V} (hs : s.vsp = s.sp) (hJ : J s.sp) :
    Solo (benchmarkKernel cli (boundKernel draw entry kernel) stats (boundVerifier draw verify)) s
      fun printed _ => AllPassed cli P printed := by
  apply benchmarkKernel_solo (fun s : TrialMem E M V => J s.sp ∧ (cli.doVerify = true → s.vsp = s.sp))
    (fun r s => J s.sp ∧ ∃ x, Ok x ∧ Spec x r ∧
      (cli.doVerify = true → (draw s.vsp).Returns (some x, s.sp))) ⟨hJ, fun _ => hs⟩
  · rintro s ⟨hJ, hsame⟩
    obtain ⟨x, e, hreturns, hx, he⟩ := hdraw s.sp hJ
    apply Solo.bind
    apply (pickBy_solo hreturns).mono
    rintro _ _ ⟨rfl, rfl⟩
    apply (onNew_solo fun m => hkernel _ m hx).mono
    rintro r _ ⟨hr, m, rfl⟩
    refine ⟨he, _, hx, hr, fun hv => ?_⟩
    show (draw s.vsp).Returns _
    rw [hsame hv]
    exact hreturns
  · rintro r s ⟨-, x, hx, hr, -⟩
    exact hstats x r s hx hr
  · rintro hv r s ⟨hJ, x, hx, hr, hreturns⟩
    apply Solo.bind
    apply (pickBy_solo (hreturns hv)).mono
    rintro _ _ ⟨rfl, rfl⟩
    apply (onNew_solo fun v => hverify _ r v hx hr).mono
    rintro pass _ ⟨rfl, v, rfl⟩
    exact ⟨rfl, hJ, fun _ => rfl⟩
  · rintro hv r s ⟨hJ, -⟩
    exact ⟨hJ, fun h => absurd h (by simp [hv])⟩

/-- Kernels without a source. -/
theorem plain_solo {cli : CLApp} {entry : M → M} {kernel : Prog M R}
    {stats : R → Prog (TrialMem E M V) A} {verify : R → Prog V Bool} (Spec : R → Prop) {P : A → Prop}
    (hkernel : ∀ m, Solo kernel (entry m) fun r _ => Spec r)
    (hstats : ∀ r s, Spec r → Solo (stats r) s fun a s' => P a ∧ s' = s)
    (hverify : ∀ r v, Spec r → Solo (verify r) v fun pass _ => pass = true) (s : TrialMem E M V) :
    Solo (benchmarkKernel cli (onNew TrialMem.workLens entry kernel) stats
      fun r => onNew TrialMem.checkLens id (verify r)) s fun printed _ => AllPassed cli P printed := by
  apply benchmarkKernel_solo (fun _ => True) (fun r _ => Spec r) trivial
  · intro s _
    apply (onNew_solo hkernel).mono
    exact fun r s' h => h.1
  · exact hstats
  · intro _ r s hr
    apply (onNew_solo fun v => hverify r v hr).mono
    exact fun pass s' h => ⟨h.1, trivial⟩
  · exact fun _ _ _ _ => trivial

end Search

section Mains

variable {n : ℕ} {M V X R A : Type}

/-- A `main` from its pickers on. -/
def searchMain (p : SourcePicker n) (cli : CLApp) (draw : p.rng.State → Fueled (Option X × p.rng.State))
    (entry : M → M) (kernel : X → Prog M R) (stats : R → Prog (TrialMem p.rng.State M V) A)
    (verify : X → R → Prog V Bool) : Prog (TrialMem p.rng.State M V) (List (Line A)) := do
  .store fun s => { s with sp := p.start, vsp := p.start }
  benchmarkKernel cli (boundKernel draw entry kernel) stats (boundVerifier draw verify)

theorem searchMain_solo {p : SourcePicker n} {cli : CLApp}
    {draw : p.rng.State → Fueled (Option X × p.rng.State)} {entry : M → M} {kernel : X → Prog M R}
    {stats : R → Prog (TrialMem p.rng.State M V) A} {verify : X → R → Prog V Bool} (Ok : X → Prop)
    (Spec : X → R → Prop) {P : A → Prop}
    (hdraw : ∀ j, ∃ x k, (draw (p.rng.after kRandSeed j)).Returns (some x, p.rng.after kRandSeed k) ∧ Ok x)
    (hkernel : ∀ x m, Ok x → Solo (kernel x) (entry m) fun r _ => Spec x r)
    (hstats : ∀ x r s, Ok x → Spec x r → Solo (stats r) s fun a s' => P a ∧ s' = s)
    (hverify : ∀ x r v, Ok x → Spec x r → Solo (verify x r) v fun pass _ => pass = true)
    (s : TrialMem p.rng.State M V) :
    Solo (searchMain p cli draw entry kernel stats verify) s fun printed _ => AllPassed cli P printed := by
  apply Solo.store_bind
  apply search_solo (fun e => ∃ j, e = p.rng.after kRandSeed j) Ok Spec ?_ hkernel hstats hverify rfl
    ⟨0, rfl⟩
  rintro _ ⟨j, rfl⟩
  obtain ⟨x, k, hreturns, hx⟩ := hdraw j
  exact ⟨x, _, hreturns, hx, k, rfl⟩

end Mains

end Gapbs.Bench
