import Mathlib.Algebra.Group.PUnit
import Gapbs.Conc.Lens
import Gapbs.Conc.Schedule

/-!
# Work sharing with a reduction

Parallel loops whose threads add up partial results.  The iterations are dealt out beforehand by a
schedule, or the threads claim them one by one from a shared cursor by `fetch_add`; when the
iterations work on separate parts of the memory, both end with all of them done and with the same
total.
-/

namespace Conc

variable {S X : Type} {m : Nat}

/-- Iterations that work on separate parts of the memory: `Own i` is what iteration `i` may do, and
nothing that the others do concerns it. -/
structure Separate (Own : Fin m → S → S → Prop) (I : S → Prop) (Pre Post : Fin m → S → Prop) :
    Prop where
  inv : ∀ i s s', I s → Own i s s' → I s'
  pre : ∀ i j s s', i ≠ j → I s → Pre i s → Own j s s' → Pre i s'
  post : ∀ i j s s', i ≠ j → I s → Post i s → Own j s s' → Post i s'

variable {Own : Fin m → S → S → Prop} {I : S → Prop} {Pre Post : Fin m → S → Prop}

/-- A thread that works through a list of iterations of its own and adds up what they find in a part
`value` of its local state: iteration `i` ends with `Post i x` when it has found `x`. -/
theorem WP.forEach_local [AddCommMonoid X] {L : Type} {value : L → X} {Post : Fin m → X → S → Prop}
    {body : Fin m → L → Prog S L}
    (hsep : ∀ val : Fin m → X, Separate Own I Pre fun i => Post i (val i)) {l : List (Fin m)}
    (hnodup : l.Nodup) {x : L} (hx : value x = 0) {s : S} (hI : I s) (hpre : ∀ i ∈ l, Pre i s)
    (iteration : ∀ i x s, I s → Pre i s →
      WP (Γ := Unit) (fun σ τ => ∃ j, j ≠ i ∧ Own j σ.1 τ.1) (fun σ τ => Own i σ.1 τ.1)
        (fun y σ => ∃ v, value y = value x + v ∧ Post i v σ.1) (body i x) (s, ())) :
    WP (Γ := Unit) (fun σ τ => ∃ j, j ∉ l ∧ Own j σ.1 τ.1) (fun σ τ => ∃ i ∈ l, Own i σ.1 τ.1)
      (fun y σ => ∃ val : Fin m → X, value y = (l.map val).sum ∧ I σ.1 ∧ ∀ i ∈ l, Post i (val i) σ.1)
      (Prog.forEach l x body) (s, ()) := by
  -- what is known when the iterations of `pre` are behind
  let Known (pre : List (Fin m)) (y : L) (σ : S × Unit) : Prop :=
    ∃ val : Fin m → X, value y = (pre.map val).sum ∧ I σ.1 ∧ (∀ i ∈ l, i ∈ pre → Post i (val i) σ.1) ∧
      ∀ i ∈ l, i ∉ pre → Pre i σ.1
  have hstable (pre : List (Fin m)) (y : L) :
      Stable (fun σ τ : S × Unit => ∃ j, j ∉ l ∧ Own j σ.1 τ.1) (Known pre y) := by
    rintro σ τ ⟨val, hy, hI, hpost, hpre⟩ ⟨j, hj, hown⟩
    have hne (i : Fin m) (hi : i ∈ l) : i ≠ j := fun heq => hj (heq ▸ hi)
    exact ⟨val, hy, (hsep val).inv j _ _ hI hown,
      fun i hi hip => (hsep val).post i j _ _ (hne i hi) hI (hpost i hi hip) hown,
      fun i hi hip => (hsep val).pre i j _ _ (hne i hi) hI (hpre i hi hip) hown⟩
  have hstart : Known [] x (s, ()) := ⟨fun _ => 0, by simp [hx], hI, by simp, fun i hi _ => hpre i hi⟩
  apply (WP.forEach Known hstart hstable ?_).mono
  · rintro y σ ⟨val, hy, hI, hpost, -⟩
    exact ⟨val, hy, hI, fun i hi => hpost i hi hi⟩
  · rintro pre i post y ⟨s, ⟨⟩⟩ hsplit ⟨val, hy, hI, hpost, hpre⟩
    have hi : i ∈ l := by simp [hsplit]
    have hnotin : i ∉ pre := by
      rw [hsplit, List.nodup_append] at hnodup
      exact fun hmem => hnodup.2.2 i hmem i (by simp) rfl
    -- the rest of the thread's iterations is framed around this one
    let Rest (σ : S × Unit) : Prop := I σ.1 ∧ (∀ j ∈ l, j ∈ pre → Post j (val j) σ.1) ∧
      ∀ j ∈ l, j ∉ pre → j ≠ i → Pre j σ.1
    have hrest : Rest (s, ()) := ⟨hI, hpost, fun j hj hjp _ => hpre j hj hjp⟩
    have hkeep (j : Fin m) (hj : ∀ k ∈ l, k ≠ i → k ≠ j) (σ τ : S × Unit) (h : Rest σ)
        (hown : Own j σ.1 τ.1) : Rest τ := by
      refine ⟨(hsep val).inv j _ _ h.1 hown, fun k hk hkp => ?_, fun k hk hkp hki => ?_⟩
      · have hki : k ≠ i := fun heq => hnotin (heq ▸ hkp)
        exact (hsep val).post k j _ _ (hj k hk hki) h.1 (h.2.1 k hk hkp) hown
      · exact (hsep val).pre k j _ _ (hj k hk hki) h.1 (h.2.2 k hk hkp hki) hown
    have hwp := (iteration i y s hI (hpre i hi hnotin)).weaken
      (U := fun σ τ => ∃ j, j ∉ l ∧ Own j σ.1 τ.1)
      (fun _ _ ⟨j, hj, hown⟩ => ⟨j, fun heq => hj (heq ▸ hi), hown⟩) fun _ _ h => h
    have hframe := hwp.frame (P := Rest) hrest
      (fun σ τ h ⟨j, hj, hown⟩ => hkeep j (fun k hk _ heq => hj (heq ▸ hk)) σ τ h hown)
      fun σ τ h hown => hkeep i (fun k _ hki => hki) σ τ h hown
    refine (hframe.weaken (fun _ _ h => h) fun _ _ hown => ⟨i, hi, hown⟩).mono ?_
    rintro z τ ⟨⟨v, hz, hpost⟩, hI, hposts, hpres⟩
    have hval (j : Fin m) (hj : j ∈ pre) : Function.update val i v j = val j := by
      have hji : j ≠ i := fun heq => hnotin (heq ▸ hj)
      exact Function.update_of_ne hji _ _
    refine ⟨Function.update val i v, ?_, hI, fun j hj hjp => ?_, fun j hj hjp => ?_⟩
    · rw [List.map_append, List.sum_append, List.map_congr_left hval, hz, hy]
      simp
    · rcases List.mem_append.mp hjp with hjp | hjp
      · rw [hval j hjp]
        exact hposts j hj hjp
      · rw [List.mem_singleton.mp hjp, Function.update_self]
        exact hpost
    · rw [List.mem_append, List.mem_singleton, not_or] at hjp
      exact hpres j hj hjp.1 hjp.2

/-- Iterations that are dealt out beforehand, to threads that carry a local state from one iteration to
the next; what they have found is added up when all are done. -/
theorem Solo.share_local [AddCommMonoid X] {L : Type} {value : L → X} {T : Nat} [NeZero T]
    (sched : Schedule T m) {Post : Fin m → X → S → Prop} {body : Fin m → L → Prog S L}
    (hsep : ∀ val : Fin m → X, Separate Own I Pre fun i => Post i (val i)) {x : L} (hx : value x = 0)
    {s : S} (hI : I s) (hpre : ∀ i, Pre i s)
    (iteration : ∀ i x s, I s → Pre i s →
      WP (Γ := Unit) (fun σ τ => ∃ j, j ≠ i ∧ Own j σ.1 τ.1) (fun σ τ => Own i σ.1 τ.1)
        (fun y σ => ∃ v, value y = value x + v ∧ Post i v σ.1) (body i x) (s, ())) :
    Solo (Prog.fork fun t => Prog.forEach (sched.work t) x body) s fun r s' =>
      ∃ val : Fin m → X, ∑ t, value (r t) = ∑ i, val i ∧ I s' ∧ ∀ i, Post i (val i) s' := by
  let Act (t : Fin T) (σ τ : S × Unit) : Prop := ∃ i ∈ sched.work t, Own i σ.1 τ.1
  have hthread (t : Fin T) := (WP.forEach_local hsep (sched.work_nodup t) hx hI
    (fun i _ => hpre i) iteration).weaken (U := Rely Act t) (V := Act t)
    (fun _ _ ⟨_, hu, j, hj, hown⟩ => ⟨j, fun hjt => hu (sched.eq_of_mem hj hjt), hown⟩)
    fun _ _ h => h
  apply (Solo.fork Act _ () hthread).mono
  rintro r s' ⟨⟨⟩, h⟩
  obtain ⟨t₀⟩ : Nonempty (Fin T) := ⟨0⟩
  choose val hsum hinv hpost using h
  choose owner howner using sched.exists_mem
  refine ⟨fun i => val (owner i) i, ?_, hinv t₀, fun i => hpost (owner i) i (howner i)⟩
  rw [← sched.sum_work fun i => val (owner i) i]
  refine Finset.sum_congr rfl fun t _ => (hsum t).trans (congrArg List.sum ?_)
  refine List.map_congr_left fun i hi => ?_
  rw [sched.eq_of_mem hi (howner i)]

/-- The special case where the local state is what has been found. -/
theorem Solo.share_reduce [AddCommMonoid X] {T : Nat} [NeZero T] (sched : Schedule T m)
    {Post : Fin m → X → S → Prop} {body : Fin m → X → Prog S X}
    (hsep : ∀ val : Fin m → X, Separate Own I Pre fun i => Post i (val i)) {s : S} (hI : I s)
    (hpre : ∀ i, Pre i s)
    (iteration : ∀ i x s, I s → Pre i s →
      WP (Γ := Unit) (fun σ τ => ∃ j, j ≠ i ∧ Own j σ.1 τ.1) (fun σ τ => Own i σ.1 τ.1)
        (fun y σ => ∃ v, y = x + v ∧ Post i v σ.1) (body i x) (s, ())) :
    Solo (Prog.fork fun t => Prog.forEach (sched.work t) 0 body) s fun r s' =>
      ∃ val : Fin m → X, ∑ t, r t = ∑ i, val i ∧ I s' ∧ ∀ i, Post i (val i) s' :=
  @Solo.share_local S X m Own I Pre _ X id T _ sched Post body hsep 0 rfl s hI hpre iteration

/-- Iterations that are dealt out beforehand and whose results are known beforehand. -/
theorem Solo.share_of_own [AddCommMonoid X] {T : Nat} [NeZero T] (sched : Schedule T m)
    {body : Fin m → X → Prog S X} {val : Fin m → X} (hsep : Separate Own I Pre Post) {s : S}
    (hI : I s) (hpre : ∀ i, Pre i s)
    (iteration : ∀ i x s, I s → Pre i s →
      WP (Γ := Unit) (fun σ τ => ∃ j, j ≠ i ∧ Own j σ.1 τ.1) (fun σ τ => Own i σ.1 τ.1)
        (fun y σ => y = x + val i ∧ Post i σ.1) (body i x) (s, ())) :
    Solo (Prog.fork fun t => Prog.forEach (sched.work t) 0 body) s fun r s' =>
      ∑ t, r t = ∑ i, val i ∧ I s' ∧ ∀ i, Post i s' := by
  let Post' (i : Fin m) (v : X) (s : S) : Prop := v = val i ∧ Post i s
  have hsep' (v : Fin m → X) : Separate Own I Pre fun i => Post' i (v i) :=
    ⟨hsep.inv, hsep.pre, fun i j s s' hij hI hpost hown =>
      ⟨hpost.1, hsep.post i j s s' hij hI hpost.2 hown⟩⟩
  apply (@Solo.share_reduce S X m Own I Pre _ T _ sched Post' body hsep' s hI hpre ?_).mono
  · rintro r s' ⟨v, hsum, hI, hpost⟩
    refine ⟨hsum.trans ?_, hI, fun i => (hpost i).2⟩
    exact Finset.sum_congr rfl fun i _ => (hpost i).1
  · intro i x s hI hpre
    exact (iteration i x s hI hpre).mono fun y σ ⟨hy, hpost⟩ => ⟨val i, hy, rfl, hpost⟩

/-- A work-sharing loop with `reduction(+ : x)`. -/
def Prog.parallelSum [AddCommMonoid X] (T m : Nat) [NeZero T] (body : Fin m → X → Prog S X) :
    Prog S X :=
  (Prog.pick (Schedule.serial T m)).bind fun sched =>
    (Prog.fork fun t => Prog.forEach (sched.work t) 0 body).bind fun r => .ret (∑ t, r t)

theorem Solo.parallelSum [AddCommMonoid X] {T : Nat} [NeZero T] {Post : Fin m → X → S → Prop}
    {body : Fin m → X → Prog S X} {s : S} (Own : Fin m → S → S → Prop) (I : S → Prop)
    (Pre : Fin m → S → Prop) (hsep : ∀ val : Fin m → X, Separate Own I Pre fun i => Post i (val i))
    (hI : I s) (hpre : ∀ i, Pre i s)
    (iteration : ∀ i x s, I s → Pre i s →
      WP (Γ := Unit) (fun σ τ => ∃ j, j ≠ i ∧ Own j σ.1 τ.1) (fun σ τ => Own i σ.1 τ.1)
        (fun y σ => ∃ v, y = x + v ∧ Post i v σ.1) (body i x) (s, ())) :
    Solo (Prog.parallelSum T m body) s fun total s' =>
      ∃ val : Fin m → X, total = ∑ i, val i ∧ I s' ∧ ∀ i, Post i (val i) s' := by
  apply Solo.pick_bind
  intro sched
  apply Solo.bind
  exact (Solo.share_reduce sched hsep hI hpre iteration).mono fun r s' h => Solo.ret h

/-- The loop of a team of threads that add nothing up. -/
theorem Solo.parallelFor_of_own {T : Nat} [NeZero T] {body : Fin m → Prog S Unit} {s : S}
    (Own : Fin m → S → S → Prop) (I : S → Prop) (Pre Post : Fin m → S → Prop) (hI : I s)
    (hpre : ∀ i, Pre i s) (inv : ∀ i s s', I s → Own i s s' → I s')
    (stablePre : ∀ i j s s', i ≠ j → I s → Pre i s → Own j s s' → Pre i s')
    (stablePost : ∀ i j s s', i ≠ j → I s → Post i s → Own j s s' → Post i s')
    (iteration : ∀ i s, I s → Pre i s → WP (Γ := Unit) (fun σ τ => ∃ j, j ≠ i ∧ Own j σ.1 τ.1)
      (fun σ τ => Own i σ.1 τ.1) (fun _ σ => Post i σ.1) (body i) (s, ())) :
    Solo (Prog.parallelFor T m body) s fun _ s' => I s' ∧ ∀ i, Post i s' := by
  apply Solo.pick_bind
  intro sched
  apply Solo.bind
  have hloop := @Solo.share_of_own S Unit m Own I Pre Post _ T _ sched (fun i _ => body i)
    (fun _ => ()) ⟨inv, stablePre, stablePost⟩ s hI hpre
    fun i _ s hI hpre => (iteration i s hI hpre).mono fun _ _ h => ⟨rfl, h⟩
  exact hloop.mono fun _ _ h => Solo.ret h.2

/-- A work-sharing loop in which iteration `i` fills slot `i` of an array and leaves `rest` as it is. -/
theorem Solo.parallelFor_store_rest {T m : Nat} [NeZero T] {X Y : Type} {s : S} (upd : Fin m → S → S)
    (slot : S → Fin m → X) (rest : S → Y) (value : Fin m → X) (hself : ∀ i s, slot (upd i s) i = value i)
    (hother : ∀ i j s, j ≠ i → slot (upd i s) j = slot s j) (hrest : ∀ i s, rest (upd i s) = rest s) :
    Solo (Prog.parallelFor T m fun i => .store (upd i)) s fun _ s' =>
      rest s' = rest s ∧ ∀ i, slot s' i = value i := by
  let Own (i : Fin m) (s s' : S) : Prop := rest s' = rest s ∧ ∀ j, j ≠ i → slot s' j = slot s j
  apply Solo.parallelFor_of_own Own (fun s' => rest s' = rest s) (fun _ _ => True)
    (fun i s' => slot s' i = value i) rfl (fun _ => trivial) (fun _ _ _ hr hown => hown.1.trans hr)
    (fun _ _ _ _ _ _ _ _ => trivial) (fun i j _ _ hij _ hpost hown => (hown.2 i hij).trans hpost)
  intro i s _ _
  apply WP.store (P := fun _ => True) trivial (fun _ _ _ _ => trivial)
  · rintro _ σ τ hσ ⟨j, hj, hown⟩
    exact (hown.2 i hj.symm).trans hσ
  · exact fun s _ _ => ⟨(), .inr ⟨hrest i s, fun j => hother i j s⟩, hself i s⟩

theorem Solo.parallelFor_store {T m : Nat} [NeZero T] {X : Type} {s : S} (upd : Fin m → S → S)
    (slot : S → Fin m → X) (value : Fin m → X) (hself : ∀ i s, slot (upd i s) i = value i)
    (hother : ∀ i j s, j ≠ i → slot (upd i s) j = slot s j) :
    Solo (Prog.parallelFor T m fun i => .store (upd i)) s fun _ s' => ∀ i, slot s' i = value i :=
  (Solo.parallelFor_store_rest upd slot (fun _ => ()) value hself hother fun _ _ => rfl).mono
    fun _ _ h => h.2

/-- A work-sharing loop in which iteration `i` loads an argument and writes cell `i` of an array, which is
the part of the memory that `state` sets. -/
theorem Solo.parallelFor_setCells {T k : Nat} [NeZero T] {X β : Type} {state : List X → S}
    (hinj : Function.Injective state) {get : Fin k → S → Option β} {put : Fin k → β → S → Option S}
    {cells : List X} (hk : k ≤ cells.length) (arg : Fin k → β) (value : Fin k → X)
    (hget : ∀ i cur, cur.length = cells.length → get i (state cur) = some (arg i))
    (hput : ∀ i cur, cur.length = cells.length →
      put i (arg i) (state cur) = some (state (cur.set i (value i)))) :
    Solo (.parallelFor T k fun i => (Prog.loadAt (get i)).bind fun c => .storeAt (put i c))
      (state cells) fun _ s' => s' = state (List.ofFn value ++ cells.drop k) := by
  -- the cells from `k` on are left alone, and those below `k` are written one by one
  let Written (cur : List X) : Prop := cur.length = cells.length ∧ ∀ j, k ≤ j → cur[j]? = cells[j]?
  let I (s : S) : Prop := ∃ cur, s = state cur ∧ Written cur
  let Own (i : Fin k) (s s' : S) : Prop := ∀ cur, s = state cur → s' = state (cur.set i (value i))
  let Post (i : Fin k) (s : S) : Prop :=
    ∃ cur, s = state cur ∧ Written cur ∧ cur[i.val]? = some (value i)
  have hset (i : Fin k) (cur : List X) (hcur : Written cur) : Written (cur.set i (value i)) := by
    refine ⟨by rw [List.length_set, hcur.1], fun j hj => ?_⟩
    rw [List.getElem?_set_ne (by omega), hcur.2 j hj]
  have hstart : I (state cells) := ⟨cells, rfl, rfl, fun _ _ => rfl⟩
  have hI (i : Fin k) (s s' : S) (hs : I s) (hown : Own i s s') : I s' := by
    obtain ⟨cur, rfl, hcur⟩ := hs
    exact ⟨_, hown cur rfl, hset i cur hcur⟩
  have hPost (i j : Fin k) (s s' : S) (hij : i ≠ j) (hpost : Post i s) (hown : Own j s s') :
      Post i s' := by
    obtain ⟨cur, rfl, hcur, hi⟩ := hpost
    refine ⟨_, hown cur rfl, hset j cur hcur, ?_⟩
    rw [List.getElem?_set_ne (fun heq => hij (Fin.ext heq.symm)), hi]
  apply (Solo.parallelFor_of_own Own I (fun _ _ => True) Post hstart (fun _ => trivial) hI
    (fun _ _ _ _ _ _ _ _ => trivial) (fun i j s s' hij _ => hPost i j s s' hij) ?_).mono
  · rintro _ s' ⟨⟨cur, rfl, hcur⟩, hall⟩
    have hcur' : cur = List.ofFn value ++ cells.drop k := by
      apply List.ext_getElem?
      intro j
      by_cases hj : j < k
      -- iteration `j` has written the cell, and no later one has changed it
      · obtain ⟨cur', heq, -, hj'⟩ := hall ⟨j, hj⟩
        rw [hinj heq, hj', List.getElem?_append_left (by simpa using hj), List.getElem?_ofFn,
          dif_pos hj]
      · rw [hcur.2 j (by omega), List.getElem?_append_right (by simpa using hj), List.length_ofFn,
          List.getElem?_drop]
        congr 1
        omega
    rw [hcur']
  · intro i s hs _
    have hstable : Stable (fun σ τ : S × Unit => ∃ j, j ≠ i ∧ Own j σ.1 τ.1) fun σ => I σ.1 := by
      rintro σ τ hσ ⟨j, -, hown⟩
      exact hI j _ _ hσ hown
    apply WP.loadAt_bind (P := fun σ => I σ.1) hs hstable
    rintro _ _ ⟨cur, rfl, hcur⟩
    refine ⟨arg i, hget i cur hcur.1, ?_⟩
    apply WP.storeAt (P := fun σ => I σ.1) ⟨cur, rfl, hcur⟩ hstable
    · rintro _ σ τ hσ ⟨j, hij, hown⟩
      exact hPost i j _ _ hij.symm hσ hown
    · rintro _ _ ⟨cur, rfl, hcur⟩
      refine ⟨_, (), hput i cur hcur.1, .inr ?_, ?_⟩
      · intro cur' heq
        rw [hinj heq]
      · refine ⟨_, rfl, hset i cur hcur, ?_⟩
        exact List.getElem?_set_self (by rw [hcur.1]; omega)

/-! ## Claiming iterations -/

/-- Claim `chunk` iterations at a time by `fetch_add` on a shared cursor until there are none left
below `m`. -/
def Prog.claimLoop (cursor : Lens S Nat) (m chunk : Nat) (body : Nat → X → Prog S X) (x : X) :
    Prog S X :=
  .iter (fun x => do
    let start ← .op fun s => some (cursor.get s, cursor.set (cursor.get s + chunk) s)
    if m ≤ start then return .inr x
    let y ← body start x
    return .inl y) x

section Claim

variable {T limit chunk C : Nat} {cursor : Lens S Nat} {Own : Fin C → S → S → Prop} {I : S → Prop}
  {Pre Post : Fin C → S → Prop}

/-- The cursor is no part of what the iterations work on. -/
structure CursorFree (cursor : Lens S Nat) (Own : Fin C → S → S → Prop) (I : S → Prop)
    (Pre Post : Fin C → S → Prop) : Prop where
  own : ∀ i s s', Own i s s' → cursor.get s' = cursor.get s
  inv : ∀ k s, I s → I (cursor.set k s)
  pre : ∀ i k s, Pre i s → Pre i (cursor.set k s)
  post : ∀ i k s, Post i s → Post i (cursor.set k s)

/-- The first `k` chunks have been claimed, each by the thread that the ghost state names. -/
structure Claimed (cursor : Lens S Nat) (I : S → Prop) (Pre : Fin C → S → Prop) (chunk : Nat)
    (σ : S × (Fin C → Option (Fin T))) : Prop where
  inv : I σ.1
  bound : ∃ k, cursor.get σ.1 = k * chunk ∧ ∀ i, σ.2 i = none ↔ k ≤ i.val
  free : ∀ i, σ.2 i = none → Pre i σ.1

/-- What thread `t` may do: claim a chunk, find that there are none left, or work on a chunk that
belongs to it. -/
inductive ClaimStep (cursor : Lens S Nat) (limit chunk : Nat) (Own : Fin C → S → S → Prop)
    (t : Fin T) : S × (Fin C → Option (Fin T)) → S × (Fin C → Option (Fin T)) → Prop
  | claim {s : S} {γ : Fin C → Option (Fin T)} {i : Fin C} (hi : cursor.get s = i * chunk) :
      ClaimStep cursor limit chunk Own t (s, γ)
        (cursor.set (cursor.get s + chunk) s, Function.update γ i (some t))
  | pass {s : S} {γ : Fin C → Option (Fin T)} (hs : limit ≤ cursor.get s) :
      ClaimStep cursor limit chunk Own t (s, γ) (cursor.set (cursor.get s + chunk) s, γ)
  | work {s s' : S} {γ : Fin C → Option (Fin T)} {i : Fin C} (hi : γ i = some t)
      (hown : Own i s s') : ClaimStep cursor limit chunk Own t (s, γ) (s', γ)

theorem ClaimStep.claimed (hchunk : 0 < chunk) (hC : ∀ c, c < C ↔ c * chunk < limit)
    (hsep : Separate Own I Pre Post) (hfree : CursorFree cursor Own I Pre Post) {t : Fin T}
    {σ τ : S × (Fin C → Option (Fin T))} (hσ : Claimed cursor I Pre chunk σ)
    (h : ClaimStep cursor limit chunk Own t σ τ) : Claimed cursor I Pre chunk τ := by
  obtain ⟨hI, ⟨k, hk, hbound⟩, hpre⟩ := hσ
  cases h with
  | @claim s γ i hi =>
    have hki : k = i := Nat.eq_of_mul_eq_mul_right hchunk (hk.symm.trans hi)
    refine ⟨hfree.inv _ _ hI, ⟨k + 1, ?_, fun j => ?_⟩, fun j hj => ?_⟩
    · show cursor.get (cursor.set _ s) = _
      rw [cursor.get_set, Nat.add_mul, Nat.one_mul]
      exact congrArg (· + chunk) hk
    · show Function.update γ i (some t) j = none ↔ _
      by_cases hji : j = i
      · subst hji
        simp [hki]
      · have hne : j.val ≠ i.val := fun heq => hji (Fin.ext heq)
        rw [Function.update_of_ne hji, hbound j]
        omega
    · change Function.update γ i (some t) j = none at hj
      have hji : j ≠ i := fun heq => by simp [heq] at hj
      rw [Function.update_of_ne hji] at hj
      exact hfree.pre j _ _ (hpre j hj)
  | @pass s γ hs =>
    change cursor.get s = k * chunk at hk
    refine ⟨hfree.inv _ _ hI, ⟨k + 1, ?_, fun j => ?_⟩, fun j hj => hfree.pre j _ _ (hpre j hj)⟩
    · show cursor.get (cursor.set _ s) = _
      rw [cursor.get_set, Nat.add_mul, Nat.one_mul, hk]
    · -- all chunks have been claimed before
      have hlt := (hC j).mp j.isLt
      have hjk : j.val < k := Nat.lt_of_mul_lt_mul_right (a := chunk) (by omega)
      rw [hbound j]
      omega
  | @work s s' γ i hi hown =>
    refine ⟨hsep.inv i _ _ hI hown, ⟨k, (hfree.own i _ _ hown).trans hk, hbound⟩, fun j hj => ?_⟩
    have hji : j ≠ i := fun heq => by simp_all
    exact hsep.pre j i _ _ hji hI (hpre j hj) hown

theorem ClaimStep.cursor_le (hfree : CursorFree cursor Own I Pre Post) {t : Fin T}
    {σ τ : S × (Fin C → Option (Fin T))} (h : ClaimStep cursor limit chunk Own t σ τ) :
    cursor.get σ.1 ≤ cursor.get τ.1 := by
  cases h with
  | claim hi => simp
  | pass hs => simp
  | work hi hown => exact (hfree.own _ _ _ hown).ge

/-- What the others do to the chunks of thread `t`. -/
theorem ClaimStep.other {t u : Fin T} (hut : u ≠ t) {σ τ : S × (Fin C → Option (Fin T))}
    (hσ : Claimed cursor I Pre chunk σ) (hchunk : 0 < chunk)
    (h : ClaimStep cursor limit chunk Own u σ τ) (i : Fin C) : τ.2 i = some t ↔ σ.2 i = some t := by
  cases h with
  | @claim s γ j hj =>
    obtain ⟨-, ⟨k, hk, hbound⟩, -⟩ := hσ
    have hkj : k = j := Nat.eq_of_mul_eq_mul_right hchunk (hk.symm.trans hj)
    show Function.update γ j (some u) i = some t ↔ γ i = some t
    by_cases hij : i = j
    · subst hij
      have hnone : γ i = none := (hbound i).mpr hkj.le
      simp [hnone, hut]
    · rw [Function.update_of_ne hij]
  | pass hs => exact Iff.rfl
  | work hi hown => exact Iff.rfl

/-- What thread `t` knows between two claims. -/
structure ClaimedBy [AddCommMonoid X] (cursor : Lens S Nat) (I : S → Prop) (Pre Post : Fin C → S → Prop)
    (chunk : Nat) (val : Fin C → X) (t : Fin T) (x : X) (σ : S × (Fin C → Option (Fin T))) :
    Prop where
  claimed : Claimed cursor I Pre chunk σ
  post : ∀ i, σ.2 i = some t → Post i σ.1
  total : x = ∑ i, if σ.2 i = some t then val i else 0

theorem ClaimedBy.stable [AddCommMonoid X] {val : Fin C → X} (hchunk : 0 < chunk)
    (hC : ∀ c, c < C ↔ c * chunk < limit) (hsep : Separate Own I Pre Post)
    (hfree : CursorFree cursor Own I Pre Post) (t : Fin T) (x : X) :
    Stable (Rely (ClaimStep cursor limit chunk Own) t)
      (ClaimedBy cursor I Pre Post chunk val t x) := by
  rintro σ τ ⟨hclaimed, hpost, htotal⟩ ⟨u, hu, hstep⟩
  have hmine := hstep.other hu hclaimed hchunk
  refine ⟨hstep.claimed hchunk hC hsep hfree hclaimed, fun i hi => ?_, ?_⟩
  · have hi' := hpost i ((hmine i).mp hi)
    cases hstep with
    | claim _ => exact hfree.post i _ _ hi'
    | pass _ => exact hfree.post i _ _ hi'
    | @work s s' γ j hj hown =>
      have hij : i ≠ j := fun heq => by
        subst heq
        exact hu (Option.some_inj.mp (hj.symm.trans hi))
      exact hsep.post i j _ _ hij hclaimed.inv hi' hown
  · rw [htotal]
    exact Finset.sum_congr rfl fun i _ => if_congr (hmine i).symm rfl rfl

variable [AddCommMonoid X] {body : Nat → X → Prog S X} {val : Fin C → X}

/-- A chunk that has just been claimed is worked on; the rest of what the thread knows is framed
around it. -/
theorem claimedBody_wp (hchunk : 0 < chunk) (hC : ∀ c, c < C ↔ c * chunk < limit)
    (hsep : Separate Own I Pre Post) (hfree : CursorFree cursor Own I Pre Post) {i : Fin C} {x : X}
    {t : Fin T} {σ : S × (Fin C → Option (Fin T))}
    (iteration : ∀ s, I s → Pre i s →
      WP (Γ := Unit) (fun σ τ => (∃ j, j ≠ i ∧ Own j σ.1 τ.1) ∨ ∃ k, τ.1 = cursor.set k σ.1)
        (fun σ τ => Own i σ.1 τ.1) (fun y σ => y = x + val i ∧ Post i σ.1) (body (i * chunk) x)
        (s, ()))
    (hclaimed : Claimed cursor I Pre chunk σ) (hpre : Pre i σ.1) (hi : σ.2 i = some t)
    (hpost : ∀ j, j ≠ i → σ.2 j = some t → Post j σ.1)
    (htotal : x = ∑ j, if j ≠ i ∧ σ.2 j = some t then val j else 0) (k : Nat)
    (hk : k ≤ cursor.get σ.1) :
    WP (Rely (ClaimStep cursor limit chunk Own) t) (ClaimStep cursor limit chunk Own t)
      (fun y τ => ClaimedBy cursor I Pre Post chunk val t y τ ∧ k ≤ cursor.get τ.1)
      (body (i * chunk) x) σ := by
  let Rest (τ : S × (Fin C → Option (Fin T))) : Prop :=
    Claimed cursor I Pre chunk τ ∧ (∀ j, τ.2 j = some t ↔ σ.2 j = some t) ∧
      (∀ j, j ≠ i → σ.2 j = some t → Post j τ.1) ∧ k ≤ cursor.get τ.1
  have hstable : Stable (Rely (ClaimStep cursor limit chunk Own) t) Rest := by
    rintro τ υ ⟨hclaimed, hmine, hpost, hk⟩ ⟨u, hu, hstep⟩
    have hother := hstep.other hu hclaimed hchunk
    refine ⟨hstep.claimed hchunk hC hsep hfree hclaimed, fun j => (hother j).trans (hmine j),
      fun j hji hj => ?_, hk.trans (hstep.cursor_le hfree)⟩
    have hj' := hpost j hji hj
    cases hstep with
    | claim _ => exact hfree.post j _ _ hj'
    | pass _ => exact hfree.post j _ _ hj'
    | @work s s' γ l hl hown =>
      have hjl : j ≠ l := fun heq => by
        subst heq
        exact hu (Option.some_inj.mp (hl.symm.trans ((hmine j).mpr hj)))
      exact hsep.post j l _ _ hjl hclaimed.inv hj' hown
  have hzoom := WP.zoom Lens.id (.unit : Lens (Fin C → Option (Fin T)) Unit) (P := Rest)
    (R := Rely (ClaimStep cursor limit chunk Own) t) (G := ClaimStep cursor limit chunk Own t)
    (σ := σ) (iteration σ.1 hclaimed.inv hpre) ⟨hclaimed, fun _ => Iff.rfl, hpost, hk⟩ hstable ?_ ?_
  · rw [Prog.zoom_id] at hzoom
    apply hzoom.mono
    rintro y τ ⟨⟨hy, hposti⟩, hclaimed, hmine, hposts, hk⟩
    refine ⟨⟨hclaimed, fun j hj => ?_, ?_⟩, hk⟩
    · by_cases hji : j = i
      · exact hji ▸ hposti
      · exact hposts j hji ((hmine j).mp hj)
    · rw [hy, htotal]
      symm
      apply sum_eq_add_of_cell i
      · rw [if_pos ((hmine i).mpr hi), if_neg fun h => h.1 rfl, zero_add]
      · intro j hji
        rw [if_congr (hmine j) rfl rfl]
        simp [hji]
  · -- the others work on other chunks or move the cursor
    rintro τ υ ⟨hclaimed, hmine, -, -⟩ ⟨u, hu, hstep⟩
    right
    cases hstep with
    | claim _ => exact .inr ⟨_, rfl⟩
    | pass _ => exact .inr ⟨_, rfl⟩
    | @work s s' γ l hl hown =>
      refine .inl ⟨l, fun heq => ?_, hown⟩
      subst heq
      exact hu (Option.some_inj.mp (hl.symm.trans ((hmine l).mpr hi)))
  · rintro ⟨s, γ⟩ ⟨s', ⟨⟩⟩ ⟨hclaimed, hmine, hpost, hk⟩ hown
    have hstep : ClaimStep cursor limit chunk Own t (s, γ) (s', γ) := .work ((hmine i).mpr hi) hown
    refine ⟨hstep, hstep.claimed hchunk hC hsep hfree hclaimed, hmine, fun j hji hj => ?_,
      hk.trans (hfree.own i _ _ hown).ge⟩
    exact hsep.post j i _ _ hji hclaimed.inv (hpost j hji hj) hown

/-- A thread that claims chunks until there are none left. -/
theorem claimLoop_wp (hchunk : 0 < chunk) (hC : ∀ c, c < C ↔ c * chunk < limit)
    (hsep : Separate Own I Pre Post) (hfree : CursorFree cursor Own I Pre Post)
    (iteration : ∀ (i : Fin C) x s, I s → Pre i s →
      WP (Γ := Unit) (fun σ τ => (∃ j, j ≠ i ∧ Own j σ.1 τ.1) ∨ ∃ k, τ.1 = cursor.set k σ.1)
        (fun σ τ => Own i σ.1 τ.1) (fun y σ => y = x + val i ∧ Post i σ.1) (body (i * chunk) x)
        (s, ()))
    {t : Fin T} {σ : S × (Fin C → Option (Fin T))}
    (hσ : ClaimedBy cursor I Pre Post chunk val t 0 σ) :
    WP (Rely (ClaimStep cursor limit chunk Own) t) (ClaimStep cursor limit chunk Own t)
      (fun x τ => ClaimedBy cursor I Pre Post chunk val t x τ ∧ limit ≤ cursor.get τ.1)
      (Prog.claimLoop cursor limit chunk body 0) σ := by
  have hstable (x : X) := @ClaimedBy.stable S X T limit chunk C cursor Own I Pre Post _ val hchunk hC
    hsep hfree t x
  have hstableLe (x : X) (k : Nat) : Stable (Rely (ClaimStep cursor limit chunk Own) t)
      fun τ => ClaimedBy cursor I Pre Post chunk val t x τ ∧ k ≤ cursor.get τ.1 :=
    (hstable x).and fun _ _ hk ⟨_, _, hstep⟩ => hk.trans (hstep.cursor_le hfree)
  apply WP.iter (fun x τ => ClaimedBy cursor I Pre Post chunk val t x τ)
    (fun _ τ => limit - cursor.get τ.1) hσ hstable (fun x => hstableLe x limit)
  · rintro _ τ υ - ⟨_, _, hstep⟩
    have hle := hstep.cursor_le hfree
    omega
  · intro x τ hτ
    apply WP.op_bind (P := fun υ => ClaimedBy cursor I Pre Post chunk val t x υ ∧
      cursor.get τ.1 ≤ cursor.get υ.1) ⟨hτ, le_refl _⟩ (hstableLe x _)
    rintro s γ ⟨hmine, hle⟩
    change cursor.get τ.1 ≤ cursor.get s at hle
    by_cases hs : limit ≤ cursor.get s
    · -- nothing is left
      have hstep : ClaimStep cursor limit chunk Own t (s, γ)
        (cursor.set (cursor.get s + chunk) s, γ) := .pass hs
      refine ⟨_, _, γ, rfl, .inr hstep, ?_⟩
      rw [if_pos hs]
      refine WP.ret ⟨⟨hstep.claimed hchunk hC hsep hfree hmine.claimed, fun i hi =>
        hfree.post i _ _ (hmine.post i hi), hmine.total⟩, ?_⟩ (hstableLe x limit)
      show limit ≤ cursor.get (cursor.set _ s)
      rw [cursor.get_set]
      omega
    · obtain ⟨-, ⟨k, hk, hbound⟩, hpre⟩ := hmine.claimed
      change cursor.get s = k * chunk at hk
      have hkC : k < C := (hC k).mpr (by omega)
      let i : Fin C := ⟨k, hkC⟩
      have hnone : γ i = none := (hbound i).mpr (le_refl k)
      have hstep : ClaimStep cursor limit chunk Own t (s, γ)
        (cursor.set (cursor.get s + chunk) s, Function.update γ i (some t)) := .claim hk
      refine ⟨_, _, _, rfl, .inr hstep, ?_⟩
      rw [if_neg hs]
      have hstart : cursor.get s = i * chunk := hk
      rw [hstart]
      have hbody := @claimedBody_wp S X T limit chunk C cursor Own I Pre Post _ body val hchunk hC
        hsep hfree i x t (cursor.set (i * chunk + chunk) s, Function.update γ i (some t))
        (fun s hI hpre => iteration i x s hI hpre)
        (hstart ▸ hstep.claimed hchunk hC hsep hfree hmine.claimed)
        (hfree.pre i _ _ (hpre i hnone)) (Function.update_self ..) ?_ ?_ (i * chunk + chunk)
        (cursor.get_set _ s).ge
      · apply WP.bind
        apply hbody.mono
        rintro y υ ⟨hy, hle'⟩
        refine WP.ret ⟨hy, ?_⟩ ((hstable y).and fun υ υ' hlt hother => ?_)
        · omega
        · obtain ⟨_, _, hstep⟩ := hother
          have hle := hstep.cursor_le hfree
          omega
      · intro j hji hj
        change Function.update γ i (some t) j = some t at hj
        rw [Function.update_of_ne hji] at hj
        exact hfree.post j _ _ (hmine.post j hj)
      · rw [hmine.total]
        apply Finset.sum_congr rfl
        intro j _
        by_cases hji : j = i
        · subst hji
          simp [hnone]
        · simp [hji]

/-- Iterations that the threads claim in chunks from a shared cursor. -/
theorem Solo.claim_of_own [NeZero T] (hchunk : 0 < chunk) (hC : ∀ c, c < C ↔ c * chunk < limit)
    (hsep : Separate Own I Pre Post) (hfree : CursorFree cursor Own I Pre Post) {s : S}
    (hs : cursor.get s = 0) (hI : I s) (hpre : ∀ i, Pre i s)
    (iteration : ∀ (i : Fin C) x s, I s → Pre i s →
      WP (Γ := Unit) (fun σ τ => (∃ j, j ≠ i ∧ Own j σ.1 τ.1) ∨ ∃ k, τ.1 = cursor.set k σ.1)
        (fun σ τ => Own i σ.1 τ.1) (fun y σ => y = x + val i ∧ Post i σ.1) (body (i * chunk) x)
        (s, ())) :
    Solo (Prog.fork fun _ : Fin T => Prog.claimLoop cursor limit chunk body 0) s fun r s' =>
      ∑ t, r t = ∑ i, val i ∧ I s' ∧ ∀ i, Post i s' := by
  have hstart (t : Fin T) : ClaimedBy cursor I Pre Post chunk val t 0 (s, fun _ => none) := by
    refine ⟨⟨hI, ⟨0, by simpa using hs, by simp⟩, fun i _ => hpre i⟩, fun i hi => ?_, by simp⟩
    simp at hi
  apply (Solo.fork (ClaimStep cursor limit chunk Own) _ _ fun t =>
    claimLoop_wp hchunk hC hsep hfree iteration (hstart t)).mono
  rintro r s' ⟨γ, h⟩
  obtain ⟨t₀⟩ : Nonempty (Fin T) := ⟨0⟩
  -- every chunk has been claimed by some thread
  have howner (i : Fin C) : ∃ t, γ i = some t := by
    obtain ⟨-, ⟨k, hk, hbound⟩, -⟩ := (h t₀).1.claimed
    have hle : limit ≤ cursor.get s' := (h t₀).2
    change cursor.get s' = k * chunk at hk
    have hlt := (hC i).mp i.isLt
    have hik : i.val < k := Nat.lt_of_mul_lt_mul_right (a := chunk) (by omega)
    exact Option.ne_none_iff_exists'.mp fun hnone => absurd ((hbound i).mp hnone) (not_le.mpr hik)
  refine ⟨?_, (h t₀).1.claimed.inv, fun i => ?_⟩
  · calc ∑ t, r t = ∑ t, ∑ i, if γ i = some t then val i else 0 :=
        Finset.sum_congr rfl fun t _ => (h t).1.total
      _ = ∑ i, ∑ t, if γ i = some t then val i else 0 := Finset.sum_comm
      _ = ∑ i, val i := Finset.sum_congr rfl fun i _ => by
        obtain ⟨t, ht⟩ := howner i
        simp [ht]
  · obtain ⟨t, ht⟩ := howner i
    exact (h t).1.post i ht

end Claim

end Conc
