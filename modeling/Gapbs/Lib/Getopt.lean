import Mathlib.Data.List.Basic
import Mathlib.Data.List.Nodup

/-!
# Options on a command line

The words of a command line are scanned for options of one letter, which may be put together in one word
and of which some take an argument, attached or in the next word.  Words that are no options are passed over,
and a word of two dashes ends the options.
-/

namespace Getopt

variable {α : Type}

/-- Which letters are options, and whether these take an argument. -/
structure Options (α : Type) where
  dash : α
  /-- what is reported for a letter that is no option, and for an argument that is missing -/
  unknown : α
  takes : α → Option Bool
  takes_dash : takes dash = none

variable (o : Options α)

/-- The options in one word behind its dash, and the last one if it takes the next word as its argument. -/
def cluster : List α → List (α × List α) × Option α
  | [] => ([], none)
  | c :: cs => match o.takes c with
    | some true => if cs = [] then ([], some c) else ([(c, cs)], none)
    | some false => ((c, []) :: (cluster cs).1, (cluster cs).2)
    | none => ((o.unknown, []) :: (cluster cs).1, (cluster cs).2)

/-- A letter that does not take an argument. -/
def flag (c : α) : α × List α := if o.takes c = none then (o.unknown, []) else (c, [])

/-- The words are a spelling of the options. -/
inductive Spells : List (List α) → List (α × List α) → Prop
  | done : Spells [] []
  | stop (ws : List (List α)) : Spells ([o.dash, o.dash] :: ws) []
  | operand {w : List α} {ws : List (List α)} {es : List (α × List α)} (hw : w.head? ≠ some o.dash ∨ w = [o.dash])
      (h : Spells ws es) : Spells (w :: ws) es
  | flags {cs : List α} {ws : List (List α)} {es : List (α × List α)} (hcs : ∀ c ∈ cs, o.takes c ≠ some true)
      (hne : cs ≠ []) (hstop : cs ≠ [o.dash]) (h : Spells ws es) :
      Spells ((o.dash :: cs) :: ws) (cs.map (flag o) ++ es)
  | attached {cs : List α} {c : α} {arg : List α} {ws : List (List α)} {es : List (α × List α)}
      (hcs : ∀ c ∈ cs, o.takes c ≠ some true) (hc : o.takes c = some true) (harg : arg ≠ []) (h : Spells ws es) :
      Spells ((o.dash :: (cs ++ c :: arg)) :: ws) (cs.map (flag o) ++ (c, arg) :: es)
  | separate {cs : List α} {c : α} {arg : List α} {ws : List (List α)} {es : List (α × List α)}
      (hcs : ∀ c ∈ cs, o.takes c ≠ some true) (hc : o.takes c = some true) (h : Spells ws es) :
      Spells ((o.dash :: (cs ++ [c])) :: arg :: ws) (cs.map (flag o) ++ (c, arg) :: es)
  | missing {cs : List α} {c : α} (hcs : ∀ c ∈ cs, o.takes c ≠ some true) (hc : o.takes c = some true) :
      Spells [o.dash :: (cs ++ [c])] (cs.map (flag o) ++ [(o.unknown, [])])

variable {o}

/-! ## Clusters -/

theorem cluster_flags_append {cs : List α} (hcs : ∀ c ∈ cs, o.takes c ≠ some true) (rest : List α) :
    cluster o (cs ++ rest) = (cs.map (flag o) ++ (cluster o rest).1, (cluster o rest).2) := by
  induction cs with
  | nil => rfl
  | cons c cs ih =>
    have hrest := ih fun x hx => hcs x (List.mem_cons_of_mem c hx)
    rw [List.cons_append, cluster, hrest]
    cases hc : o.takes c with
    | none => simp [flag, hc]
    | some b =>
      cases b with
      | true => exact absurd hc (hcs c List.mem_cons_self)
      | false => simp [flag, hc]

theorem cluster_flags {cs : List α} (hcs : ∀ c ∈ cs, o.takes c ≠ some true) :
    cluster o cs = (cs.map (flag o), none) := by
  have h := cluster_flags_append hcs []
  rwa [List.append_nil, cluster, List.append_nil] at h

/-- The letters in front of the first option with an argument. -/
theorem exists_split (cs : List α) : (∀ c ∈ cs, o.takes c ≠ some true) ∨
    ∃ pre c arg, cs = pre ++ c :: arg ∧ (∀ x ∈ pre, o.takes x ≠ some true) ∧ o.takes c = some true := by
  induction cs with
  | nil => exact .inl fun _ h => absurd h List.not_mem_nil
  | cons c cs ih =>
    by_cases hc : o.takes c = some true
    · exact .inr ⟨[], c, cs, rfl, fun _ h => absurd h List.not_mem_nil, hc⟩
    · rcases ih with hcs | ⟨pre, d, arg, rfl, hpre, hd⟩
      · exact .inl (List.forall_mem_cons.mpr ⟨hc, hcs⟩)
      · exact .inr ⟨c :: pre, d, arg, rfl, List.forall_mem_cons.mpr ⟨hc, hpre⟩, hd⟩

theorem append_ne_dash {cs arg : List α} {c : α} (hc : o.takes c = some true) : cs ++ c :: arg ≠ [o.dash] := by
  intro h
  have hmem : c ∈ [o.dash] := h ▸ List.mem_append_right cs List.mem_cons_self
  rw [List.mem_singleton.mp hmem, o.takes_dash] at hc
  cases hc

/-! ## How options can be spelled -/

/-- The option in a word of its own and its argument in the next one. -/
def separately (o : Options α) (e : α × List α) : List (List α) :=
  if o.takes e.1 = some true then [[o.dash, e.1], e.2] else [[o.dash, e.1]]

/-- Options that are known can be spelled. -/
theorem spells_separately {es : List (α × List α)}
    (h : ∀ e ∈ es, o.takes e.1 = some true ∨ o.takes e.1 = some false ∧ e.2 = []) :
    Spells o (es.flatMap (separately o)) es := by
  induction es with
  | nil => exact .done
  | cons e es ih =>
    obtain ⟨c, arg⟩ := e
    rw [List.forall_mem_cons] at h
    have hrest := ih h.2
    rw [List.flatMap_cons, separately]
    rcases h.1 with htakes | ⟨hflag, hnil⟩
    · rw [if_pos htakes]
      exact .separate (List.forall_mem_nil _) htakes hrest
    · have hnone : ∀ x ∈ [c], o.takes x ≠ some true := by simp [hflag]
      have hdash : [c] ≠ [o.dash] := fun heq => by
        rw [(List.cons.inj heq).1, o.takes_dash] at hflag
        cases hflag
      have hspells := Spells.flags hnone (List.cons_ne_nil c []) hdash hrest
      rw [if_neg (by simp [hflag])]
      simpa [flag, hflag, show arg = [] from hnil] using hspells

/-! ## The options that are found -/

variable [DecidableEq α]

/-- The options of the words, with their arguments; an option may be waiting for its argument. -/
def scan (o : Options α) : Option α → List (List α) → List (α × List α)
  | some _, [] => [(o.unknown, [])]
  | some c, w :: ws => (c, w) :: scan o none ws
  | none, [] => []
  | none, [] :: ws => scan o none ws
  | none, (d :: cs) :: ws =>
    if d ≠ o.dash ∨ cs = [] then scan o none ws
    else if cs = [o.dash] then []
    else (cluster o cs).1 ++ scan o (cluster o cs).2 ws

theorem scan_cluster {cs : List α} (hne : cs ≠ []) (hstop : cs ≠ [o.dash]) (ws : List (List α)) :
    scan o none ((o.dash :: cs) :: ws) = (cluster o cs).1 ++ scan o (cluster o cs).2 ws := by
  rw [scan, if_neg (by simp [hne]), if_neg hstop]

theorem Spells.scan_eq {ws : List (List α)} {es : List (α × List α)} (h : Spells o ws es) :
    scan o none ws = es := by
  induction h with
  | done => rfl
  | stop ws =>
    rw [scan, if_neg (by simp), if_pos rfl]
  | @operand w ws es hw _ ih =>
    cases w with
    | nil => exact ih
    | cons d cs =>
      rw [scan, if_pos, ih]
      rcases hw with hd | hdash
      · exact .inl fun heq => hd (congrArg some heq)
      · exact .inr (List.cons.inj hdash).2
  | flags hcs hne hstop _ ih => rw [scan_cluster hne hstop, cluster_flags hcs, ih]
  | attached hcs hc harg _ ih =>
    rw [scan_cluster (by simp) (append_ne_dash hc), cluster_flags_append hcs, cluster, hc]
    simp [harg, ih]
  | separate hcs hc _ ih =>
    rw [scan_cluster (by simp) (append_ne_dash hc), cluster_flags_append hcs, cluster, hc]
    simp [scan, ih]
  | missing hcs hc =>
    rw [scan_cluster (by simp) (append_ne_dash hc), cluster_flags_append hcs, cluster, hc]
    simp [scan]

theorem spells_scan (ws : List (List α)) : Spells o ws (scan o none ws) := by
  induction hk : ws.length using Nat.strongRecOn generalizing ws with
  | ind k ih =>
    subst hk
    have hrec (ws' : List (List α)) (hlt : ws'.length < ws.length) : Spells o ws' (scan o none ws') :=
      ih _ hlt ws' rfl
    cases ws with
    | nil => exact .done
    | cons w ws =>
      have hws : Spells o ws (scan o none ws) := hrec ws (Nat.lt_succ_self _)
      cases w with
      | nil => exact .operand (.inl (by simp)) hws
      | cons d cs =>
        by_cases hword : d ≠ o.dash ∨ cs = []
        · rw [scan, if_pos hword]
          refine .operand ?_ hws
          rcases hword with hd | rfl
          · exact .inl fun heq => hd (Option.some.inj heq)
          · by_cases hd : d = o.dash
            · exact .inr (by rw [hd])
            · exact .inl fun heq => hd (Option.some.inj heq)
        · obtain ⟨hd, hne⟩ := not_or.mp hword
          obtain rfl := not_not.mp hd
          by_cases hstop : cs = [o.dash]
          · rw [scan, if_neg hword, if_pos hstop, hstop]
            exact .stop ws
          · rw [scan_cluster hne hstop]
            rcases exists_split (o := o) cs with hcs | ⟨pre, c, arg, rfl, hpre, hc⟩
            · rw [cluster_flags hcs]
              exact .flags hcs hne hstop hws
            · rw [cluster_flags_append hpre, cluster, hc]
              by_cases harg : arg = []
              · subst harg
                cases ws with
                | nil => simpa [scan] using Spells.missing hpre hc
                | cons w ws =>
                  have hrest := hrec ws (by simp only [List.length_cons]; omega)
                  simpa [scan] using Spells.separate hpre hc hrest
              · simpa [harg] using Spells.attached hpre hc harg hws

/-- The scan finds the options of which the words are a spelling, and no others. -/
theorem scan_eq_iff {ws : List (List α)} {es : List (α × List α)} : scan o none ws = es ↔ Spells o ws es :=
  ⟨fun h => h ▸ spells_scan ws, Spells.scan_eq⟩

/-! ## The last one wins -/

/-- The argument of the last option that is one of `cs`. -/
def lastArg (cs : List α) (es : List (α × List α)) : Option (List α) :=
  (es.reverse.find? fun e => e.1 ∈ cs).map Prod.snd

/-- Is the option there? -/
def given (c : α) (es : List (α × List α)) : Bool := decide (c ∈ es.map Prod.fst)

@[simp] theorem lastArg_nil (cs : List α) : lastArg cs ([] : List (α × List α)) = none := rfl

@[simp] theorem given_nil (c : α) : given c ([] : List (α × List α)) = false := rfl

@[simp] theorem lastArg_concat (cs : List α) (es : List (α × List α)) (e : α × List α) :
    lastArg cs (es ++ [e]) = if e.1 ∈ cs then some e.2 else lastArg cs es := by
  rw [lastArg, List.reverse_append, List.reverse_singleton, List.singleton_append, List.find?_cons]
  by_cases h : e.1 ∈ cs
  · simp [h]
  · simp [h, lastArg]

@[simp] theorem given_concat (c : α) (es : List (α × List α)) (e : α × List α) :
    given c (es ++ [e]) = (given c es || decide (e.1 = c)) := by
  rw [given, given, ← Bool.decide_or, decide_eq_decide, List.map_append, List.mem_append, List.map_singleton,
    List.mem_singleton, eq_comm (a := c)]

theorem given_eq {c : α} {es : List (α × List α)} {b : Bool} (h : (∃ e ∈ es, e.1 = c) ↔ b = true) :
    given c es = b := by
  rw [given, Bool.eq_iff_iff, decide_eq_true_iff, List.mem_map]
  exact h

/-- An option that is given once, and no other one of `cs`. -/
theorem lastArg_of_mem {cs : List α} {e : α × List α} {es : List (α × List α)} (he : e ∈ es) (hcs : e.1 ∈ cs)
    (honce : ∀ e' ∈ es, e'.1 ∈ cs → e' = e) : lastArg cs es = some e.2 := by
  have hfind : (es.reverse.find? fun e => e.1 ∈ cs).isSome := by
    rw [List.find?_isSome]
    exact ⟨e, List.mem_reverse.mpr he, decide_eq_true hcs⟩
  obtain ⟨e', he'⟩ := Option.isSome_iff_exists.mp hfind
  have hcs' : e'.1 ∈ cs := by simpa using List.find?_some he'
  have hmem : e' ∈ es := List.mem_reverse.mp (List.mem_of_find?_eq_some he')
  rw [lastArg, he', honce e' hmem hcs']
  rfl

end Getopt
