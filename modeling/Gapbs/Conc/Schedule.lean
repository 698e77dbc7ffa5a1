import Mathlib.Algebra.BigOperators.Fin
import Mathlib.Data.List.OfFn
import Mathlib.Data.List.FinRange
import Mathlib.Data.Fintype.Pi
import Gapbs.Conc.Logic

/-!
# Work sharing

A parallel loop hands its iterations to the threads of a team.  Which thread runs which iteration,
and in which order, is up to the run-time system: a `Schedule` is any assignment that gives every
iteration to exactly one thread, and `parallelFor` is correct when it is correct under all of them.
-/

namespace Conc

variable {S Γ Δ : Type}

/-- An assignment of the iterations `0 .. m-1` to the threads of a team of `T`. -/
structure Schedule (T m : Nat) where
  work : Fin T → List (Fin m)
  exact : (List.ofFn work).flatten.Perm (List.finRange m)

namespace Schedule

variable {T m : Nat}

/-- Everything on the first thread, in order. -/
def serial (T m : Nat) [NeZero T] : Schedule T m where
  work t := if t = 0 then List.finRange m else []
  exact := by
    obtain ⟨k, rfl⟩ := Nat.exists_eq_succ_of_ne_zero (NeZero.ne T)
    have htail : (fun t : Fin k => if t.succ = 0 then List.finRange m else []) = fun _ => [] := by
      funext t
      rw [if_neg (Fin.succ_ne_zero t)]
    rw [List.ofFn_succ, htail, List.flatten_cons, if_pos rfl]
    simp

theorem nodup (sched : Schedule T m) : (List.ofFn sched.work).flatten.Nodup :=
  sched.exact.nodup_iff.mpr (List.nodup_finRange m)

/-- Every iteration is run by some thread. -/
theorem exists_mem (sched : Schedule T m) (i : Fin m) : ∃ t, i ∈ sched.work t := by
  have hi : i ∈ (List.ofFn sched.work).flatten := sched.exact.mem_iff.mpr (List.mem_finRange i)
  obtain ⟨l, hl, hil⟩ := List.mem_flatten.mp hi
  obtain ⟨t, rfl⟩ := (List.mem_ofFn' _ _).mp hl
  exact ⟨t, hil⟩

/-- No iteration is run by two threads. -/
theorem eq_of_mem (sched : Schedule T m) {i : Fin m} {t u : Fin T} (ht : i ∈ sched.work t)
    (hu : i ∈ sched.work u) : t = u := by
  have hpair := (List.nodup_flatten.mp sched.nodup).2
  rw [List.pairwise_ofFn] at hpair
  rcases lt_trichotomy t u with h | h | h
  · exact absurd hu (hpair h ht)
  · exact h
  · exact absurd ht (hpair h hu)

/-- A reduction over the threads is the sum over all iterations. -/
theorem sum_work {M : Type} [AddCommMonoid M] (sched : Schedule T m) (f : Fin m → M) :
    ∑ t, ((sched.work t).map f).sum = ∑ i, f i := by
  have hsum : ((List.ofFn sched.work).flatten.map f).sum = ((List.finRange m).map f).sum :=
    (sched.exact.map f).sum_eq
  rw [List.map_flatten, List.sum_flatten, List.map_map, List.map_ofFn, List.sum_ofFn,
    ← List.ofFn_eq_map, List.sum_ofFn] at hsum
  exact hsum

theorem work_nodup (sched : Schedule T m) (t : Fin T) : (sched.work t).Nodup :=
  (List.nodup_flatten.mp sched.nodup).1 _ ((List.mem_ofFn' _ _).mpr ⟨t, rfl⟩)

end Schedule

/-- A total over the iterations of a loop when one of them contributes `x` more. -/
theorem sum_eq_add_of_cell {ι M : Type} [Fintype ι] [DecidableEq ι] [AddCommMonoid M] {f g : ι → M}
    (i : ι) (x : M) (hi : g i = f i + x) (hother : ∀ j, j ≠ i → g j = f j) :
    ∑ j, g j = ∑ j, f j + x := by
  have hsum : ∑ j ∈ Finset.univ.erase i, g j = ∑ j ∈ Finset.univ.erase i, f j :=
    Finset.sum_congr rfl fun j hj => hother j (Finset.ne_of_mem_erase hj)
  rw [← Finset.add_sum_erase _ g (Finset.mem_univ i), ← Finset.add_sum_erase _ f (Finset.mem_univ i),
    hi, hsum, add_right_comm]

namespace Prog

/-- A work-sharing loop over `0 .. m-1` on a team of `T` threads, up to its closing barrier. -/
def parallelFor (T m : Nat) [NeZero T] (body : Fin m → Prog S Unit) : Prog S Unit :=
  (pick (Schedule.serial T m)).bind fun sched =>
    (fork fun t => forEach (sched.work t) () fun i _ => body i).bind fun _ => ret ()

end Prog

/-- A work-sharing loop, from the actions of its threads and an invariant for each thread, indexed
by the iterations it has completed. -/
theorem Solo.parallelFor {T m : Nat} [NeZero T] {body : Fin m → Prog S Unit} {s : S}
    (A : Schedule T m → Fin T → S × Δ → S × Δ → Prop)
    (Inv : Schedule T m → Fin T → List (Fin m) → S × Δ → Prop) (δ : Schedule T m → Δ)
    (init : ∀ sched t, Inv sched t [] (s, δ sched))
    (stable : ∀ sched t l, Stable (Rely (A sched) t) (Inv sched t l))
    (iteration : ∀ sched t pre i post τ, sched.work t = pre ++ i :: post → Inv sched t pre τ →
      WP (Rely (A sched) t) (A sched t) (fun _ τ' => Inv sched t (pre ++ [i]) τ') (body i) τ) :
    Solo (Prog.parallelFor T m body) s fun _ s' =>
      ∃ sched δ', ∀ t, Inv sched t (sched.work t) (s', δ') := by
  refine Solo.pick_bind fun sched => Solo.bind ?_
  refine (Solo.fork (A sched) (fun t _ => Inv sched t (sched.work t)) (δ sched) ?_).mono ?_
  · exact fun t => WP.forEach (fun pre _ => Inv sched t pre) (init sched t)
      (fun l _ => stable sched t l)
      (fun pre i post _ τ hwork hτ => iteration sched t pre i post τ hwork hτ)
  · rintro r s' ⟨δ', hδ'⟩
    exact Solo.ret ⟨sched, δ', hδ'⟩

/-- The special case where all threads keep to one action and no ghost state is needed: each
iteration establishes its own postcondition, which no action destroys. -/
theorem Solo.share_of_action {T m : Nat} [NeZero T] (sched : Schedule T m)
    {body : Fin m → Prog S Unit} {s : S} (A : S → S → Prop) (I : S → Prop)
    (Post : Fin m → S → Prop) (init : I s) (inv : ∀ s s', I s → A s s' → I s')
    (stable : ∀ i s s', I s → Post i s → A s s' → Post i s')
    (iteration : ∀ i s, I s → WP (Γ := Unit) (fun σ τ => A σ.1 τ.1) (fun σ τ => A σ.1 τ.1)
      (fun _ σ => I σ.1 ∧ Post i σ.1) (body i) (s, ())) :
    Solo (Prog.fork fun t => Prog.forEach (sched.work t) () fun i _ => body i) s fun _ s' =>
      I s' ∧ ∀ i, Post i s' := by
  let Act (_ : Fin T) (σ τ : S × Unit) : Prop := A σ.1 τ.1
  let Known (l : List (Fin m)) (_ : Unit) (σ : S × Unit) : Prop := I σ.1 ∧ ∀ i ∈ l, Post i σ.1
  have hstable (t : Fin T) (l : List (Fin m)) (x : Unit) : Stable (Rely Act t) (Known l x) :=
    fun σ τ hσ ⟨_, _, hA⟩ =>
      ⟨inv _ _ hσ.1 hA, fun i hi => stable i _ _ hσ.1 (hσ.2 i hi) hA⟩
  have hstart : Known [] () (s, ()) := ⟨init, by simp⟩
  apply (Solo.fork Act (fun t x => Known (sched.work t) x) () fun t =>
    WP.forEach Known hstart (hstable t) ?_).mono
  · rintro _ s' ⟨_, h⟩
    obtain ⟨t⟩ : Nonempty (Fin T) := ⟨0⟩
    refine ⟨(h t).1, fun i => ?_⟩
    obtain ⟨t, ht⟩ := sched.exists_mem i
    exact (h t).2 i ht
  · rintro pre i post _ ⟨s, ⟨⟩⟩ - ⟨hI, hpre⟩
    have hbody := (iteration i s hI).weaken (U := Rely Act t) (V := Act t)
      (fun _ _ ⟨_, _, hA⟩ => hA) fun _ _ h => h
    refine (hbody.frame (P := Known pre ()) ⟨hI, hpre⟩ (hstable t pre ()) ?_).mono ?_
    · intro σ τ hσ hA
      exact ⟨inv _ _ hσ.1 hA, fun i hi => stable i _ _ hσ.1 (hσ.2 i hi) hA⟩
    · rintro _ τ ⟨⟨hI, hi⟩, -, hl⟩
      refine ⟨hI, fun j hj => ?_⟩
      rcases List.mem_append.mp hj with hj | hj
      · exact hl j hj
      · exact List.mem_singleton.mp hj ▸ hi

theorem Solo.parallelFor_of_action {T m : Nat} [NeZero T] {body : Fin m → Prog S Unit} {s : S}
    (A : S → S → Prop) (I : S → Prop) (Post : Fin m → S → Prop) (init : I s)
    (inv : ∀ s s', I s → A s s' → I s')
    (stable : ∀ i s s', I s → Post i s → A s s' → Post i s')
    (iteration : ∀ i s, I s → WP (Γ := Unit) (fun σ τ => A σ.1 τ.1) (fun σ τ => A σ.1 τ.1)
      (fun _ σ => I σ.1 ∧ Post i σ.1) (body i) (s, ())) :
    Solo (Prog.parallelFor T m body) s fun _ s' => I s' ∧ ∀ i, Post i s' :=
  Solo.pick_bind fun sched => Solo.bind
    ((Solo.share_of_action sched A I Post init inv stable iteration).mono fun _ _ h => Solo.ret h)

/-- A team of one thread runs the iterations one after the other, in some order. -/
theorem Solo.parallelFor_one {m : Nat} {body : Fin m → Prog S Unit} {s : S}
    (Inv : List (Fin m) → S → Prop) (init : Inv [] s)
    (iteration : ∀ pre i post t, (pre ++ i :: post).Perm (List.finRange m) → Inv pre t →
      Solo (body i) t fun _ t' => Inv (pre ++ [i]) t') :
    Solo (Prog.parallelFor 1 m body) s fun _ s' => ∃ l, l.Perm (List.finRange m) ∧ Inv l s' := by
  apply Solo.pick_bind
  intro sched
  have hexact : (sched.work 0).Perm (List.finRange m) := by
    simpa using sched.exact
  have hloop : Solo (.forEach (sched.work 0) () fun i _ => body i) s fun _ s' => Inv (sched.work 0) s' := by
    apply Solo.forEach (fun pre _ t => Inv pre t) init
    exact fun pre i post _ t hwork ht => iteration pre i post t (hwork ▸ hexact) ht
  apply Solo.bind
  -- nobody interferes with the only thread
  apply (Solo.fork (Δ := Unit) (fun _ _ _ => True) (fun _ _ σ => Inv (sched.work 0) σ.1) () fun t => ?_).mono
  · rintro _ s' ⟨_, hs'⟩
    exact Solo.ret ⟨_, hexact, hs' 0⟩
  · rw [Subsingleton.elim t 0]
    exact WP.weaken hloop (fun _ _ ⟨u, hu, _⟩ => hu (Subsingleton.elim u 0)) fun _ _ _ => trivial
/-- What the other iterations do to an invariant over one ghost cell for each iteration. -/
def OtherCells {m : Nat} {G : Type} (I : S × (Fin m → G) → Prop) (i : Fin m)
    (σ τ : S × (Fin m → G)) : Prop := (I σ → I τ) ∧ τ.2 i = σ.2 i

/-- What iteration `i` may do: it keeps the invariant and changes its own ghost cell only. -/
def OwnCell {m : Nat} {G : Type} (I : S × (Fin m → G) → Prop) (i : Fin m)
    (σ τ : S × (Fin m → G)) : Prop := (I σ → I τ) ∧ ∀ j, j ≠ i → τ.2 j = σ.2 j

theorem stable_otherCells {m : Nat} {G : Type} (I : S × (Fin m → G) → Prop) (i : Fin m) (c : G) :
    Stable (OtherCells I i) fun σ => I σ ∧ σ.2 i = c :=
  fun _ _ hσ hR => ⟨hR.1 hσ.1, hR.2.trans hσ.2⟩

/-- A work-sharing loop whose iterations all work on the same memory.  An invariant ties the memory
to one ghost cell for each iteration, which only that iteration moves from `first` to `last`; all
steps keep to `A`, which does not destroy what the iterations have established. -/
theorem Solo.parallelFor_cells {T m : Nat} [NeZero T] {G : Type} {body : Fin m → Prog S Unit} {s : S}
    (I : S × (Fin m → G) → Prop) (A : S → S → Prop) (Post : Fin m → S → Prop)
    (first last : Fin m → G) (init : I (s, first))
    (stable : ∀ i s s', Post i s → A s s' → Post i s')
    (iteration : ∀ i σ, I σ → σ.2 i = first i →
      WP (fun σ τ => OtherCells I i σ τ ∧ A σ.1 τ.1) (fun σ τ => OwnCell I i σ τ ∧ A σ.1 τ.1)
        (fun _ τ => (I τ ∧ τ.2 i = last i) ∧ Post i τ.1) (body i) σ) :
    Solo (Prog.parallelFor T m body) s fun _ s' => I (s', last) ∧ ∀ i, Post i s' := by
  let Act (sched : Schedule T m) (t : Fin T) (σ τ : S × (Fin m → G)) : Prop :=
    ((I σ → I τ) ∧ ∀ j, j ∉ sched.work t → τ.2 j = σ.2 j) ∧ A σ.1 τ.1
  let Mine (sched : Schedule T m) (t : Fin T) (l : List (Fin m)) (σ : S × (Fin m → G)) : Prop :=
    (I σ ∧ ∀ i ∈ sched.work t, σ.2 i = if i ∈ l then last i else first i) ∧ ∀ i ∈ l, Post i σ.1
  apply (Solo.parallelFor Act Mine (fun _ => first) ?_ ?_ ?_).mono
  · rintro _ s' ⟨sched, γ, h⟩
    obtain ⟨t⟩ : Nonempty (Fin T) := ⟨0⟩
    have hγ : γ = last := by
      funext i
      obtain ⟨t, ht⟩ := sched.exists_mem i
      have hi := (h t).1.2 i ht
      rwa [if_pos ht] at hi
    refine ⟨hγ ▸ (h t).1.1, fun i => ?_⟩
    obtain ⟨t, ht⟩ := sched.exists_mem i
    exact (h t).2 i ht
  · exact fun sched t => ⟨⟨init, by simp⟩, by simp⟩
  · rintro sched t l σ τ ⟨⟨hI, hl⟩, hpost⟩ ⟨u, hu, hact, hA⟩
    refine ⟨⟨hact.1 hI, fun i hi => ?_⟩, fun i hi => stable i _ _ (hpost i hi) hA⟩
    rw [hact.2 i fun hiu => hu (sched.eq_of_mem hiu hi), hl i hi]
  · intro sched t pre i post σ hwork hσ
    have hi : i ∈ sched.work t := by simp [hwork]
    have hnotin : i ∉ pre := by
      have hnodup := sched.work_nodup t
      rw [hwork, List.nodup_append] at hnodup
      exact fun hmem => hnodup.2.2 i hmem i (by simp) rfl
    have hfirst := hσ.1.2 i hi
    rw [if_neg hnotin] at hfirst
    -- the cells of the thread's other iterations stay as they are, and so does what it has established
    let Rest (τ : S × (Fin m → G)) : Prop :=
      (∀ j ∈ sched.work t, j ≠ i → τ.2 j = σ.2 j) ∧ ∀ j ∈ pre, Post j τ.1
    have hwp := (iteration i σ hσ.1.1 hfirst).weaken (U := Rely (Act sched) t)
      (fun _ _ ⟨u, hu, hact, hA⟩ =>
        ⟨⟨hact.1, hact.2 i fun hiu => hu (sched.eq_of_mem hiu hi)⟩, hA⟩)
      (fun _ _ hO => hO)
    have hframe := hwp.frame (P := Rest) ⟨fun _ _ _ => rfl, hσ.2⟩
      (fun _ _ h ⟨u, hu, hact, hA⟩ => ⟨fun j hj hji =>
        (hact.2 j fun hju => hu (sched.eq_of_mem hju hj)).trans (h.1 j hj hji),
        fun j hj => stable j _ _ (h.2 j hj) hA⟩)
      fun _ _ h hO => ⟨fun j hj hji => (hO.1.2 j hji).trans (h.1 j hj hji),
        fun j hj => stable j _ _ (h.2 j hj) hO.2⟩
    refine (hframe.weaken (fun _ _ h => h)
      fun _ _ hO => ⟨⟨hO.1.1, fun j hj => hO.1.2 j fun heq => hj (heq ▸ hi)⟩, hO.2⟩).mono ?_
    rintro _ τ ⟨⟨⟨hI, hlast⟩, hown⟩, hrest, hpre⟩
    refine ⟨⟨hI, fun j hj => ?_⟩, fun j hj => ?_⟩
    · by_cases hji : j = i
      · rw [hji, hlast, if_pos (by simp)]
      · rw [hrest j hj hji, hσ.1.2 j hj]
        simp [hji]
    · rcases List.mem_append.mp hj with hj | hj
      · exact hpre j hj
      · exact List.mem_singleton.mp hj ▸ hown

/-- The special case without a common action. -/
theorem Solo.parallelFor_ghost {T m : Nat} [NeZero T] {G : Type} {body : Fin m → Prog S Unit} {s : S}
    (I : S × (Fin m → G) → Prop) (first last : Fin m → G) (init : I (s, first))
    (iteration : ∀ i σ, I σ → σ.2 i = first i →
      WP (OtherCells I i) (OwnCell I i) (fun _ τ => I τ ∧ τ.2 i = last i) (body i) σ) :
    Solo (Prog.parallelFor T m body) s fun _ s' => I (s', last) := by
  apply (Solo.parallelFor_cells I (fun _ _ => True) (fun _ _ => True) first last init
    (fun _ _ _ _ _ => trivial) fun i σ hσ hi => ?_).mono fun _ _ h => h.1
  exact ((iteration i σ hσ hi).weaken (fun _ _ h => h.1) fun _ _ h => ⟨h, trivial⟩).mono
    fun _ _ h => ⟨h, trivial⟩

end Conc
