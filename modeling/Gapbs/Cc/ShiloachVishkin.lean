import Mathlib.Data.Fintype.Card
import Gapbs.Conc.Lens
import Gapbs.Cc.Afforest

/-!
# Shiloach-Vishkin

The kernel of `cc_sv.cc`: hook roots along all edges by plain loads and stores, compress, and repeat
until a pass finds nothing to hook.  Of two hooks of one root the later store wins, so that a pass may
lose edges; it then has set `change` and is followed by another one.
-/

namespace Gapbs

open Conc OrderedForest Function

variable {n : Nat}

/-- The variables of `ShiloachVishkin`. -/
structure SvMem (n : Nat) where
  comp : Comp n
  change : Bool
  numIter : Nat

namespace SvMem

def compLens : Lens (SvMem n) (Comp n) where
  get s := s.comp
  set comp s := { s with comp }
  get_set _ _ := rfl
  set_get _ := rfl
  set_set _ _ _ := rfl

def setComp (s : SvMem n) (x v : Fin n) : SvMem n := { s with comp := update s.comp x v }

/-- `num_iter++`; an overflow is undefined. -/
def countIter (s : SvMem n) : Option (SvMem n) :=
  if s.numIter + 1 < 2 ^ 31 then some { s with numIter := s.numIter + 1 } else none

end SvMem

/-- The body of the loop over `out_neigh(u)`. -/
def hookEdge (u v : Fin n) : Prog (SvMem n) Unit := do
  let compU ← .load fun s => s.comp u
  let compV ← .load fun s => s.comp v
  if compU = compV then return ()
  -- hooking condition so lower component ID wins independent of direction
  let highComp := if compU > compV then compU else compV
  let lowComp := compU + (compV - highComp)
  let parentHigh ← .load fun s => s.comp highComp
  if highComp = parentHigh then
    .store fun s => { s with change := true }
    .store fun s => s.setComp highComp lowComp
  else return ()

/-- The hooking phase. -/
def hook (g : Graph n) (T : Nat) [NeZero T] : Prog (SvMem n) Unit :=
  .parallelFor T n fun u => .forEach (g.outNeigh u) () fun v _ => hookEdge u v

def shiloachVishkin (g : Graph n) (T : Nat) [NeZero T] : Prog (SvMem n) Unit := do
  (Prog.parallelFor T n fun v => storeComp v v).zoom SvMem.compLens
  .store fun s => { s with change := true }
  .store fun s => { s with numIter := 0 }
  .iter (fun _ => do
    let change ← .load fun s => s.change
    if change then
      .store fun s => { s with change := false }
      .storeAt SvMem.countIter
      hook g T
      (compress T).zoom SvMem.compLens
      return .inl ()
    else return .inr ()) ()

/-! ## The hooking phase -/

/-- The state during a pass that starts from the stars `comp₀`; the ghost cell of a vertex says that
its iteration has announced a change that it has yet to make. -/
structure Hooking (g : Graph n) (comp₀ : Comp n) (k : Nat) (σ : SvMem n × (Fin n → Bool)) : Prop where
  good : Good g σ.1.comp
  fixed : ∀ x, σ.1.comp x = x → comp₀ x = x
  quiet : σ.1.change = false → σ.1.comp = comp₀
  hooked : σ.1.change = true → (∃ x, comp₀ x = x ∧ σ.1.comp x ≠ x) ∨ ∃ u, σ.2 u = true
  numIter : σ.1.numIter = k

variable {g : Graph n} {comp₀ : Comp n} {k : Nat}

theorem Hooking.announce {s : SvMem n} {γ : Fin n → Bool} (h : Hooking g comp₀ k (s, γ)) (u : Fin n) :
    Hooking g comp₀ k ({ s with change := true }, update γ u true) :=
  ⟨h.good, h.fixed, nofun, fun _ => .inr ⟨u, update_self ..⟩, h.numIter⟩

/-- The store of a hook, of a vertex that was a root when the pass began. -/
theorem Hooking.store {s : SvMem n} {γ : Fin n → Bool} (h : Hooking g comp₀ k (s, γ)) (u : Fin n)
    (hchange : s.change = true) {high low : Fin n} (hroot : comp₀ high = high) (hlt : low < high)
    (hweak : g.Weak high low) : Hooking g comp₀ k (s.setComp high low, update γ u false) := by
  have hself : (s.setComp high low).comp high = low := update_self ..
  have hother {x : Fin n} (hx : x ≠ high) : (s.setComp high low).comp x = s.comp x := update_of_ne hx ..
  refine ⟨⟨isForest_update h.good.forest hlt.le, fun x => ?_⟩, fun x hx => ?_, fun hfalse => ?_,
    fun _ => .inl ⟨high, hroot, hself.trans_ne hlt.ne⟩, h.numIter⟩
  · show g.Weak x ((s.setComp high low).comp x)
    by_cases hx : x = high
    · rw [hx, hself]
      exact hweak
    · rw [hother hx]
      exact h.good.weak x
  · by_cases hxh : x = high
    · exact hxh ▸ hroot
    · exact h.fixed x ((hother hxh).symm.trans hx)
  · exact absurd (hchange.symm.trans hfalse) Bool.true_eq_false.mp

/-- What the other iterations do while `u` is processed. -/
def HookRely (g : Graph n) (comp₀ : Comp n) (k : Nat) (u : Fin n) (σ τ : SvMem n × (Fin n → Bool)) :
    Prop :=
  OtherCells (Hooking g comp₀ k) u σ τ ∧ (σ.1.change = true → τ.1.change = true)

/-- What the iteration of `u` does. -/
def HookGuar (g : Graph n) (comp₀ : Comp n) (k : Nat) (u : Fin n) (σ τ : SvMem n × (Fin n → Bool)) :
    Prop :=
  OwnCell (Hooking g comp₀ k) u σ τ ∧ (σ.1.change = true → τ.1.change = true)

/-- The iteration of `u` is not about to hook, and unless something has changed `p` holds. -/
def Unless (g : Graph n) (comp₀ : Comp n) (k : Nat) (u : Fin n) (p : Prop)
    (σ : SvMem n × (Fin n → Bool)) : Prop :=
  (Hooking g comp₀ k σ ∧ σ.2 u = false) ∧ (σ.1.change = true ∨ p)

theorem stable_unless (u : Fin n) (p : Prop) : Stable (HookRely g comp₀ k u) (Unless g comp₀ k u p) :=
  fun _ _ hσ hR => ⟨⟨hR.1.1 hσ.1.1, hR.1.2.trans hσ.1.2⟩, hσ.2.imp_left hR.2⟩

theorem Unless.mono {u : Fin n} {p q : Prop} {σ : SvMem n × (Fin n → Bool)} (h : Unless g comp₀ k u p σ)
    (hq : σ.1.change = false → p → q) : Unless g comp₀ k u q σ := by
  refine ⟨h.1, ?_⟩
  cases hc : σ.1.change with
  | true => exact .inl rfl
  | false =>
    right
    rcases h.2 with hp | hp
    · rw [hc] at hp
      cases hp
    · exact hq hc hp

/-- One edge: unless something has changed, its ends have the same label. -/
theorem hookEdge_wp (hstar : ∀ x, comp₀ (comp₀ x) = comp₀ x) {u v : Fin n} (huv : g.Weak u v)
    {σ : SvMem n × (Fin n → Bool)} (hσ : Unless g comp₀ k u True σ) :
    WP (HookRely g comp₀ k u) (HookGuar g comp₀ k u) (fun _ => Unless g comp₀ k u (comp₀ u = comp₀ v))
      (hookEdge u v) σ := by
  have hpost : ∀ _ : Unit, Stable (HookRely g comp₀ k u) (Unless g comp₀ k u (comp₀ u = comp₀ v)) :=
    fun _ => stable_unless u _
  apply WP.load_bind hσ (stable_unless u True)
  intro s γ hs
  have hcompU : Unless g comp₀ k u (s.comp u = comp₀ u) (s, γ) :=
    hs.mono fun hc _ => by rw [hs.1.1.quiet hc]
  have hweakU := hs.1.1.good.weak u
  change g.Weak u (s.comp u) at hweakU
  apply WP.load_bind hcompU (stable_unless u _)
  generalize s.comp u = a at hweakU
  intro s γ hs
  have hcompV : Unless g comp₀ k u (a = comp₀ u ∧ s.comp v = comp₀ v) (s, γ) :=
    hs.mono fun hc ha => ⟨ha, by rw [hs.1.1.quiet hc]⟩
  have hweakV := hs.1.1.good.weak v
  change g.Weak v (s.comp v) at hweakV
  generalize s.comp v = b at hcompV hweakV
  simp only [high_eq, low_eq, Prog.bind_eq, Prog.pure_eq]
  by_cases hab : a = b
  · rw [if_pos hab]
    refine WP.ret (hcompV.mono fun _ h => ?_) (hpost ())
    rw [← h.1, ← h.2, hab]
  rw [if_neg hab]
  have trans {x y z : Fin n} : g.Weak x y → g.Weak y z → g.Weak x z := g.weak_equivalence.trans
  have hweak : g.Weak (max a b) (min a b) := by
    have hba : g.Weak a b := trans (g.weak_equivalence.symm hweakU) (trans huv hweakV)
    rcases le_total a b with hle | hle
    · rw [max_eq_right hle, min_eq_left hle]
      exact g.weak_equivalence.symm hba
    · rwa [max_eq_left hle, min_eq_right hle]
  have hlt : min a b < max a b := min_lt_max.mpr hab
  -- in a pass without changes the higher label is a root, as all labels are
  have hroot : a = comp₀ u ∧ b = comp₀ v → comp₀ (max a b) = max a b := by
    rintro ⟨rfl, rfl⟩
    rcases le_total (comp₀ u) (comp₀ v) with hle | hle
    · rw [max_eq_right hle, hstar]
    · rw [max_eq_left hle, hstar]
  generalize min a b = low at hweak hlt
  generalize max a b = high at hweak hlt hroot
  apply WP.load_bind hcompV (stable_unless u _)
  intro s γ hs
  by_cases hhigh : high = s.comp high
  · rw [if_pos hhigh]
    have hfixed : comp₀ high = high := hs.1.1.fixed high hhigh.symm
    apply WP.store_bind hs (stable_unless u _)
    intro s γ hs
    refine ⟨update γ u true, .inr ⟨⟨fun h => h.announce u, fun j hj => update_of_ne hj ..⟩, fun _ => rfl⟩, ?_⟩
    -- the hook is announced and has yet to be made
    apply WP.store (P := fun τ => (Hooking g comp₀ k τ ∧ τ.2 u = true) ∧ τ.1.change = true)
      ⟨⟨hs.1.1.announce u, update_self ..⟩, rfl⟩
      (fun _ _ hσ hR => ⟨⟨hR.1.1 hσ.1.1, hR.1.2.trans hσ.1.2⟩, hR.2 hσ.2⟩) hpost
    intro s γ hs
    have hstore := hs.1.1.store u hs.2 hfixed hlt hweak
    refine ⟨update γ u false, .inr ⟨⟨fun _ => hstore, fun j hj => update_of_ne hj ..⟩, id⟩, ?_⟩
    exact ⟨⟨hstore, update_self ..⟩, .inl hs.2⟩
  · rw [if_neg hhigh]
    refine WP.ret (hs.mono fun hc h => absurd ?_ hhigh) (hpost ())
    rw [hs.1.1.quiet hc]
    exact (hroot h).symm

/-- A pass over stars either changes nothing, and then no edge joins two of them, or hooks a root. -/
theorem hook_solo {T : Nat} [NeZero T] (hstar : ∀ x, comp₀ (comp₀ x) = comp₀ x) (hgood : Good g comp₀) :
    Solo (hook g T) ⟨comp₀, false, k⟩ fun _ s => Good g s.comp ∧ s.numIter = k ∧
      (∀ x, s.comp x = x → comp₀ x = x) ∧
      if s.change then ∃ x, comp₀ x = x ∧ s.comp x ≠ x
      else s.comp = comp₀ ∧ ∀ u v, g.Edge u v → comp₀ u = comp₀ v := by
  have hstart : Hooking g comp₀ k (⟨comp₀, false, k⟩, fun _ => false) :=
    ⟨hgood, fun _ => id, fun _ => rfl, nofun, rfl⟩
  apply (Solo.parallelFor_cells (Hooking g comp₀ k) (fun s s' => s.change = true → s'.change = true)
    (fun u s => s.change = true ∨ ∀ v ∈ g.outNeigh u, comp₀ u = comp₀ v) (fun _ => false)
    (fun _ => false) hstart (fun _ _ _ h hA => h.imp_left hA) fun u σ hσ hu => ?_).mono
  · rintro _ s ⟨hs, hedge⟩
    refine ⟨hs.good, hs.numIter, hs.fixed, ?_⟩
    cases hc : s.change with
    | true =>
      rw [if_pos rfl]
      rcases hs.hooked hc with hx | ⟨u, hu⟩
      · exact hx
      · cases hu
    | false =>
      rw [if_neg (by simp)]
      refine ⟨hs.quiet hc, fun u v huv => ?_⟩
      rcases hedge u with hu | hu
      · exact absurd (hc.symm.trans hu) nofun
      · exact hu v huv
  · apply (WP.forEach (fun pre _ => Unless g comp₀ k u (∀ v ∈ pre, comp₀ u = comp₀ v))
      ⟨⟨hσ, hu⟩, .inr (by simp)⟩ (fun _ _ => stable_unless u _) ?_).mono fun _ _ h => h
    rintro pre v post ⟨⟩ τ hsplit hτ
    have huv : g.Edge u v := by
      show v ∈ g.outNeigh u
      rw [hsplit]
      simp
    have hpre : Stable (HookRely g comp₀ k u) fun τ => τ.1.change = true ∨ ∀ v ∈ pre, comp₀ u = comp₀ v :=
      fun _ _ hσ hR => hσ.imp_left hR.2
    have hwp := (hookEdge_wp hstar (.rel u v huv) (hτ.mono fun _ _ => trivial)).frame hτ.2 hpre
      fun _ _ hσ hG => hσ.imp_left hG.2
    apply hwp.mono
    rintro _ τ' ⟨hv, hpre⟩
    refine ⟨hv.1, ?_⟩
    rcases hpre with hc | hpre
    · exact .inl hc
    · refine hv.2.imp_right fun hv w hw => ?_
      rcases List.mem_append.mp hw with hw | hw
      · exact hpre w hw
      · exact List.mem_singleton.mp hw ▸ hv

/-! ## The passes -/

/-- The number of trees. -/
def trees (comp : Comp n) : Nat := (Finset.univ.filter fun x => comp x = x).card

theorem trees_le {comp comp' : Comp n} (h : ∀ x, comp' x = x → comp x = x) :
    trees comp' ≤ trees comp := by
  apply Finset.card_le_card
  intro x hx
  rw [Finset.mem_filter] at hx ⊢
  exact ⟨hx.1, h x hx.2⟩

theorem trees_lt {comp comp' : Comp n} (h : ∀ x, comp' x = x → comp x = x)
    (hx : ∃ x, comp x = x ∧ comp' x ≠ x) : trees comp' < trees comp := by
  obtain ⟨x, hx, hx'⟩ := hx
  apply Finset.card_lt_card
  rw [Finset.ssubset_iff_of_subset]
  · refine ⟨x, ?_, ?_⟩
    · rw [Finset.mem_filter]
      exact ⟨Finset.mem_univ x, hx⟩
    · rw [Finset.mem_filter]
      exact fun h => hx' h.2
  · intro x hx
    rw [Finset.mem_filter] at hx ⊢
    exact ⟨hx.1, h x hx.2⟩

/-- Between the passes all trees are stars; each pass but the last has made them fewer. -/
structure Passed (g : Graph n) (s : SvMem n) : Prop where
  good : Good g s.comp
  star : ∀ x, s.comp (s.comp x) = s.comp x
  quiet : s.change = false → ∀ u v, g.Edge u v → s.comp u = s.comp v
  count : s.numIter + trees s.comp ≤ if s.change then n else n + 1

/-- After a pass that has found nothing to hook. -/
theorem Passed.isLeast {s : SvMem n} (h : Passed g s) (hc : s.change = false) (v : Fin n) :
    IsLeast { x | g.Weak v x } (s.comp v) := by
  constructor
  · exact h.good.weak v
  · intro x hx
    have hlabel : s.comp v = s.comp x :=
      Graph.Weak.lift (r := fun u v => s.comp u = s.comp v) ⟨fun _ => rfl, Eq.symm, Eq.trans⟩ (h.quiet hc) hx
    rw [hlabel]
    exact h.good.forest x

theorem shiloachVishkin_solo (g : Graph n) (T : Nat) [NeZero T] (s₀ : SvMem n) :
    Solo (shiloachVishkin g T) s₀ fun _ s => ∀ v, IsLeast { x | g.Weak v x } (s.comp v) := by
  apply Solo.bind
  apply (Solo.zoom (init_solo (SvMem.compLens.get s₀))).mono
  rintro _ s ⟨hid, -⟩
  change ∀ v, s.comp v = v at hid
  apply Solo.store_bind
  apply Solo.store_bind
  have hstart : Passed g ⟨s.comp, true, 0⟩ := by
    refine ⟨.of_id hid, fun x => hid (s.comp x), nofun, ?_⟩
    have hcard := Finset.card_le_univ (Finset.univ.filter fun x => s.comp x = x)
    rw [Fintype.card_fin] at hcard
    show 0 + trees s.comp ≤ n
    rw [trees]
    omega
  apply Solo.iter (fun _ s => Passed g s) (fun _ s => n + 1 - s.numIter) hstart
  rintro ⟨⟩ ⟨comp, change, k⟩ hs
  apply Solo.load_bind
  cases change with
  | false => exact Solo.ret fun v => hs.isLeast rfl v
  | true =>
    have hcount : k + trees comp ≤ n := hs.count
    have hn := g.nodes_lt
    apply Solo.store_bind
    apply Solo.storeAt_bind (t := ⟨comp, false, k + 1⟩)
    · exact if_pos (show k + 1 < 2 ^ 31 by omega)
    apply Solo.bind
    apply (hook_solo hs.star hs.good).mono
    rintro _ s' ⟨hgood, hnum, hfixed, hpass⟩
    apply Solo.bind
    apply (Solo.zoom (compress_solo hgood)).mono
    rintro _ t ⟨⟨⟨hgood', hroots⟩, hflat⟩, ht⟩
    obtain ⟨comp', change', k'⟩ := t
    obtain ⟨-, hchange, hk⟩ := SvMem.mk.inj ht
    subst hchange hk
    change Good g comp' at hgood'
    change ∀ y, root comp' y = root s'.comp y at hroots
    change ∀ x, comp' x = root comp' x at hflat
    have hstar (x : Fin n) : comp' (comp' x) = comp' x := by
      rw [hflat x]
      exact root_fixed hgood'.forest x
    -- neither loop makes a root out of a vertex that was none, so the number of trees falls
    have hfixed' (x : Fin n) (hx : comp' x = x) : s'.comp x = x :=
      fixed_of_root_eq hgood.forest (hroots x).symm hx
    have hle : trees comp' ≤ trees s'.comp := trees_le hfixed'
    have hle' : trees s'.comp ≤ trees comp := trees_le hfixed
    refine Solo.ret ⟨⟨hgood', hstar, fun hc u v huv => ?_, ?_⟩, ?_⟩
    · change s'.change = false at hc
      rw [hc, if_neg (by simp)] at hpass
      obtain ⟨hsame, hedge⟩ := hpass
      have hcomp (x : Fin n) : comp' x = comp x := by
        rw [hflat, hroots, hsame, ← root_parent hs.good.forest, root_of_fixed (hs.star x)]
      show comp' u = comp' v
      rw [hcomp, hcomp]
      exact hedge u v huv
    · show s'.numIter + trees comp' ≤ if s'.change then n else n + 1
      cases hc : s'.change with
      | false =>
        rw [if_neg (by simp)]
        omega
      | true =>
        rw [hc, if_pos rfl] at hpass
        have hlt : trees s'.comp < trees comp := trees_lt hfixed hpass
        rw [if_pos rfl]
        omega
    · show n + 1 - s'.numIter < n + 1 - k
      omega

/-- `ShiloachVishkin` terminates under every schedule and interleaving with the smallest vertex of
each weak component as its label, as `Afforest` does. -/
theorem shiloachVishkin_correct {n : Nat} (g : Graph n) (hg : g.Transposed) (T : Nat) [NeZero T]
    (s₀ : SvMem n) :
    (shiloachVishkin g T).Correct s₀ fun _ s =>
      (∀ v, IsLeast { x | g.Weak v x } (s.comp v)) ∧
      ∀ (T' : Nat) [NeZero T'] (neighborRounds : Nat) (comp₀ comp : Comp n),
        Prog.Reach (afforest g T' neighborRounds, comp₀) (.ret (), comp) → s.comp = comp := by
  apply (shiloachVishkin_solo g T s₀).correct.mono
  intro _ s hs
  refine ⟨hs, fun T' _ neighborRounds comp₀ comp hr => ?_⟩
  funext v
  have hn : 0 < n := v.pos
  exact (hs v).unique ((afforest_solo g hg hn T' neighborRounds comp₀).correct.result () comp hr v)

theorem shiloachVishkin_correct_pair :
    (shiloachVishkin pairGraph 2).Correct ⟨id, false, 0⟩ fun _ s =>
      (∀ v, IsLeast { x | pairGraph.Weak v x } (s.comp v)) ∧
      ∀ (T' : Nat) [NeZero T'] (neighborRounds : Nat) (comp₀ comp : Comp 2),
        Prog.Reach (afforest pairGraph T' neighborRounds, comp₀) (.ret (), comp) → s.comp = comp :=
  shiloachVishkin_correct pairGraph (by decide) 2 _

end Gapbs
