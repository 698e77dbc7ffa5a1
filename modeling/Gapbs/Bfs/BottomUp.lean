import Mathlib.Algebra.BigOperators.Ring.Finset
import Gapbs.Bfs.Memory

/-!
# The bottom-up step

`BUStep` looks for a parent of every vertex that has not been visited.  Threads take chunks of 1024
vertices; a chunk is made of whole words of the bitmap, which is why the plain `set_bit` of the
threads never loses a bit.
-/

namespace Gapbs

open Conc Function

variable {n : Nat}

def kChunk : Nat := 1024

/-- The body of the loop over the vertices. -/
def buVertex (g : Graph n) (u : Fin n) (awakeCount : Int) : Prog (BfsMem n) Int := do
  let val ← .load fun s => s.parent u
  if val < 0 then
    let r ← .forBreak (g.inNeigh u) () fun v _ => do
      let bit ← .load fun s => s.front.getBit v
      if bit then
        .store fun s => s.setParent u v
        (Bitmap.setBit u).zoom BfsMem.currLens
        return .inr ()
      else return (.inl () : Unit ⊕ Unit)
    match r with
    | .inl _ => return awakeCount
    | .inr _ => return awakeCount + 1
  else return awakeCount

/-- The vertices of the chunk that starts at `start`. -/
def chunkVertices (n start : Nat) : List (Fin n) := fromTo n start (min (start + kChunk) n)

def buStepChunk (g : Graph n) (start : Nat) (awakeCount : Int) : Prog (BfsMem n) Int :=
  .forEach (chunkVertices n start) awakeCount (buVertex g)

def buStep (p : Port) (T : Nat) [NeZero T] (g : Graph n) : Prog (BfsMem n) Int := do
  .store fun s => { s with curr := s.curr.reset }
  let awakeParts ← p.claim T BfsMem.nextIndexLens n kChunk (buStepChunk g)
  return ∑ t, awakeParts t

/-! ## What happens to one vertex -/

section

variable (g : Graph n) (s₀ : BfsMem n)

/-- The first in-neighbour in the frontier of a vertex that has not been visited. -/
def awakener (u : Fin n) : Option (Fin n) :=
  if s₀.parent u < 0 then (g.inNeigh u).find? s₀.front.getBit else none

/-- The vertex has not been looked at yet. -/
def Asleep (u : Fin n) (s : BfsMem n) : Prop :=
  s.parent u = s₀.parent u ∧ s.curr.getBit u = false

/-- The vertex has its parent and its bit, if there is one for it. -/
def Settled (u : Fin n) (s : BfsMem n) : Prop :=
  s.parent u = ((awakener g s₀ u).elim (s₀.parent u) fun v => (v.val : Int)) ∧
    s.curr.getBit u = (awakener g s₀ u).isSome

/-- What the rest of the team leaves alone while a thread works on `u`. -/
structure KeepsVertex (u : Fin n) (s s' : BfsMem n) : Prop where
  front : s'.front = s.front
  parent : s'.parent u = s.parent u
  word : s'.curr.words (Bitmap.wordOffset u) = s.curr.words (Bitmap.wordOffset u)

/-- What a thread does while it works on `u`. -/
structure OwnVertex (u : Fin n) (s s' : BfsMem n) : Prop where
  rest : s' = { s with parent := s'.parent, curr := s'.curr }
  parent : ∀ v, v ≠ u → s'.parent v = s.parent v
  curr : s'.curr = s.curr ∨ s'.curr = s.curr.insert u

variable {g s₀}

theorem KeepsVertex.getBit {u : Fin n} {s s' : BfsMem n} (h : KeepsVertex u s s') :
    s'.curr.getBit u = s.curr.getBit u := by
  rw [Bitmap.getBit_eq, Bitmap.getBit_eq, h.word]

theorem KeepsVertex.asleep {u : Fin n} {s s' : BfsMem n} (h : KeepsVertex u s s')
    (hs : Asleep s₀ u s) : Asleep s₀ u s' :=
  ⟨h.parent.trans hs.1, h.getBit.trans hs.2⟩

theorem KeepsVertex.settled {u : Fin n} {s s' : BfsMem n} (h : KeepsVertex u s s')
    (hs : Settled g s₀ u s) : Settled g s₀ u s' :=
  ⟨h.parent.trans hs.1, h.getBit.trans hs.2⟩

/-- The work on one vertex does not touch another one. -/
theorem OwnVertex.other {u v : Fin n} (hvu : v ≠ u) {s s' : BfsMem n} (h : OwnVertex u s s') :
    s'.parent v = s.parent v ∧ s'.curr.getBit v = s.curr.getBit v := by
  refine ⟨h.parent v hvu, ?_⟩
  rcases h.curr with heq | heq
  · rw [heq]
  · rw [heq, Bitmap.getBit_insert, decide_eq_false hvu, Bool.false_or]

/-- A neighbour in the frontier has been found. -/
theorem awaken_wp {u v : Fin n} {s : BfsMem n} (hv : awakener g s₀ u = some v) :
    WP (Γ := Unit) (fun σ τ => KeepsVertex u σ.1 τ.1) (fun σ τ => OwnVertex u σ.1 τ.1)
      (fun _ σ => Settled g s₀ u σ.1)
      ((Prog.store fun s : BfsMem n => s.setParent u v).bind fun _ =>
        (Bitmap.setBit u).zoom BfsMem.currLens) (s, ()) := by
  let R (σ τ : BfsMem n × Unit) : Prop := KeepsVertex u σ.1 τ.1
  have hstable : Stable R fun σ => σ.1.parent u = (v.val : Int) :=
    fun _ _ hσ hR => hR.parent.trans hσ
  apply WP.store_bind (P := fun _ => True) trivial fun _ _ _ _ => trivial
  intro s _ _
  refine ⟨(), .inr ⟨rfl, fun x hx => s.parent_setParent_of_ne hx _, .inl rfl⟩, ?_⟩
  have hset := WP.zoom BfsMem.currLens (.id : Lens Unit Unit) (σ := (s.setParent u v, ())) (R := R)
    (G := fun σ τ => OwnVertex u σ.1 τ.1) (P := fun σ => σ.1.parent u = (v.val : Int))
    (Bitmap.setBit_wp u _) (s.parent_setParent_self u _) hstable ?_ ?_
  · apply hset.mono
    rintro _ τ ⟨hbit, hpar⟩
    rw [Settled, hv]
    exact ⟨hpar, hbit⟩
  · exact fun σ τ _ hR => .inr hR.word
  · intro σ b hpar hb
    exact ⟨⟨rfl, fun _ _ => rfl, .inr hb⟩, hpar⟩

theorem buVertex_wp {u : Fin n} {x : Int} {s : BfsMem n} (hfront : s.front = s₀.front)
    (hs : Asleep s₀ u s) :
    WP (Γ := Unit) (fun σ τ => KeepsVertex u σ.1 τ.1) (fun σ τ => OwnVertex u σ.1 τ.1)
      (fun y σ => y = (x + if (awakener g s₀ u).isSome then 1 else 0) ∧ Settled g s₀ u σ.1)
      (buVertex g u x) (s, ()) := by
  let R (σ τ : BfsMem n × Unit) : Prop := KeepsVertex u σ.1 τ.1
  let Known (σ : BfsMem n × Unit) : Prop := σ.1.front = s₀.front ∧ Asleep s₀ u σ.1
  have hstable : Stable R Known := fun _ _ hσ hR => ⟨hR.front.trans hσ.1, hR.asleep hσ.2⟩
  have hsettled (y : Int) : Stable R fun σ =>
      y = (x + if (awakener g s₀ u).isSome then 1 else 0) ∧ Settled g s₀ u σ.1 :=
    fun _ _ hσ hR => ⟨hσ.1, hR.settled hσ.2⟩
  have hnone {σ : BfsMem n × Unit} (hσ : Known σ) (h : awakener g s₀ u = none) :
      x = (x + if (awakener g s₀ u).isSome then 1 else 0) ∧ Settled g s₀ u σ.1 := by
    rw [Settled, h]
    exact ⟨by simp, hσ.2⟩
  apply WP.load_bind (P := Known) ⟨hfront, hs⟩ hstable
  intro s _ hs
  have hparent : s.parent u = s₀.parent u := hs.2.1
  rw [hparent]
  by_cases hneg : s₀.parent u < 0
  · rw [if_pos hneg]
    have hfind : awakener g s₀ u = (g.inNeigh u).find? s₀.front.getBit := if_pos hneg
    apply WP.bind
    apply (WP.forBreak (fun pre _ σ => Known σ ∧ ∀ v ∈ pre, s₀.front.getBit v = false)
      (fun _ σ => (awakener g s₀ u).isSome = true ∧ Settled g s₀ u σ.1) ⟨hs, by simp⟩
      (fun _ _ => hstable.and fun _ _ h _ => h) (fun _ _ _ hσ hR => ⟨hσ.1, hR.settled hσ.2⟩) ?_).mono
    · rintro (⟨⟩ | ⟨⟩) τ hτ
      · refine WP.ret (hnone hτ.1 ?_) (hsettled x)
        rw [hfind, List.find?_eq_none]
        exact fun v hv => by simp [hτ.2 v hv]
      · refine WP.ret ⟨?_, hτ.2⟩ (hsettled _)
        rw [if_pos hτ.1]
    · rintro pre v post ⟨⟩ τ hsplit ⟨hτ, hpre⟩
      apply WP.load_bind (P := Known) hτ hstable
      intro s _ hs
      have hfront : s.front = s₀.front := hs.1
      rw [hfront]
      by_cases hbit : s₀.front.getBit v = true
      · rw [if_pos hbit]
        -- `v` is the first neighbour of `u` in the frontier, as none before it was
        have hv : awakener g s₀ u = some v := by
          have hnotpre : pre.find? s₀.front.getBit = none :=
            List.find?_eq_none.mpr fun x hx => by simp [hpre x hx]
          rw [hfind, hsplit, List.find?_append, hnotpre, List.find?_cons_of_pos hbit]
          rfl
        have hassoc := Prog.bind_assoc (Prog.store fun s : BfsMem n => s.setParent u v)
          (fun _ => (Bitmap.setBit u).zoom BfsMem.currLens) fun _ => .ret (.inr () : Unit ⊕ Unit)
        apply Eq.mp (congrArg (fun p => WP _ _ _ p _) hassoc)
        apply WP.bind
        apply (awaken_wp hv).mono
        intro _ τ hτ
        refine WP.ret ⟨?_, hτ⟩ fun _ _ hσ hR => ⟨hσ.1, hR.settled hσ.2⟩
        rw [hv]
        rfl
      · rw [if_neg hbit]
        refine WP.ret ⟨hs, fun x hx => ?_⟩ (hstable.and fun _ _ h _ => h)
        rcases List.mem_append.mp hx with hx | hx
        · exact hpre x hx
        · rw [List.mem_singleton.mp hx]
          exact Bool.eq_false_iff.mpr hbit
  · rw [if_neg hneg]
    exact WP.ret (hnone hs (if_neg hneg)) (hsettled x)

/-! ## Chunks -/

/-- What the thread that has taken chunk `c` may do. -/
structure OwnChunk (c : Nat) (s s' : BfsMem n) : Prop where
  rest : s' = { s with parent := s'.parent, curr := s'.curr }
  parent : ∀ v : Fin n, v.val / kChunk ≠ c → s'.parent v = s.parent v
  word : ∀ k : Fin (numWords n), k.val / 16 ≠ c → s'.curr.words k = s.curr.words k
  padded : s.curr.Padded → s'.curr.Padded

/-- A word of the bitmap belongs to one chunk. -/
theorem wordOffset_div (u : Fin n) : (Bitmap.wordOffset u).val / 16 = u.val / kChunk := by
  rw [Bitmap.val_wordOffset, Nat.div_div_eq_div_mul, kChunk]

theorem mem_chunkVertices {c : Nat} {u : Fin n} :
    u ∈ chunkVertices n (c * kChunk) ↔ u.val / kChunk = c := by
  have hu := u.isLt
  rw [chunkVertices, mem_fromTo, kChunk]
  omega

theorem OwnChunk.keeps {c : Nat} {u : Fin n} (hu : u.val / kChunk ≠ c) {s s' : BfsMem n}
    (h : OwnChunk c s s') : KeepsVertex u s s' := by
  refine ⟨?_, h.parent u hu, h.word _ (by rwa [wordOffset_div])⟩
  rw [h.rest]

theorem OwnVertex.ownChunk {u : Fin n} {s s' : BfsMem n} (h : OwnVertex u s s') :
    OwnChunk (u.val / kChunk) s s' := by
  refine ⟨h.rest, fun v hv => h.parent v fun heq => hv (heq ▸ rfl), fun k hk => ?_, fun hpad => ?_⟩
  · have hne : k ≠ Bitmap.wordOffset u := fun heq => hk (heq ▸ wordOffset_div u)
    rcases h.curr with heq | heq
    · rw [heq]
    · rw [heq, Bitmap.insert, Bitmap.words_setWord_of_ne _ hne]
  · rcases h.curr with heq | heq
    · rwa [heq]
    · rw [heq]
      exact hpad.insert u

variable (g s₀) in
/-- What is known about all chunks: only the arrays that the step writes have changed, and nothing is
written behind the end of the bitmap. -/
structure OnlyWrites (s : BfsMem n) : Prop where
  rest : s = { s₀ with parent := s.parent, curr := s.curr, nextIndex := s.nextIndex }
  padded : s.curr.Padded

variable (s₀) in
def ChunkAsleep (c : Nat) (s : BfsMem n) : Prop :=
  ∀ u : Fin n, u.val / kChunk = c → Asleep s₀ u s

variable (g s₀) in
def ChunkSettled (c : Nat) (s : BfsMem n) : Prop :=
  ∀ u : Fin n, u.val / kChunk = c → Settled g s₀ u s

variable (g s₀) in
/-- How many vertices of a chunk are awakened. -/
def awakeOf (c : Nat) : Int :=
  ((chunkVertices n (c * kChunk)).map fun u => if (awakener g s₀ u).isSome then (1 : Int) else 0).sum

theorem OwnChunk.onlyWrites {c : Nat} {s s' : BfsMem n} (h : OwnChunk c s s')
    (hs : OnlyWrites s₀ s) : OnlyWrites s₀ s' := by
  refine ⟨?_, h.padded hs.padded⟩
  rw [h.rest, hs.rest]

theorem chunks_separate {C : Nat} : Separate (fun c : Fin C => OwnChunk (n := n) c) (OnlyWrites s₀)
    (fun c => ChunkAsleep s₀ c) fun c => ChunkSettled g s₀ c := by
  refine ⟨fun c s s' hs hown => hown.onlyWrites hs, fun c d s s' hcd _ hs hown u hu => ?_,
    fun c d s s' hcd _ hs hown u hu => ?_⟩
  · have hne : u.val / kChunk ≠ d.val := fun heq => hcd (Fin.ext (hu.symm.trans heq))
    exact (hown.keeps hne).asleep (hs u hu)
  · have hne : u.val / kChunk ≠ d.val := fun heq => hcd (Fin.ext (hu.symm.trans heq))
    exact (hown.keeps hne).settled (hs u hu)

theorem chunks_cursorFree {C : Nat} : CursorFree BfsMem.nextIndexLens
    (fun c : Fin C => OwnChunk (n := n) c) (OnlyWrites s₀) (fun c => ChunkAsleep s₀ c)
    fun c => ChunkSettled g s₀ c := by
  refine ⟨fun c s s' hown => ?_, fun k s hs => ?_, fun c k s hs => hs, fun c k s hs => hs⟩
  · show s'.nextIndex = s.nextIndex
    rw [hown.rest]
  · refine ⟨?_, hs.padded⟩
    show { s with nextIndex := k } = _
    rw [hs.rest]
    rfl

variable (g s₀) in
/-- Of the vertices in `P`, those of the list `pre` have been looked at. -/
structure SettledUpTo (P : Fin n → Prop) (pre : List (Fin n)) (s : BfsMem n) : Prop where
  writes : OnlyWrites s₀ s
  settled : ∀ u, P u → u ∈ pre → Settled g s₀ u s
  asleep : ∀ u, P u → u ∉ pre → Asleep s₀ u s

theorem SettledUpTo.stable {P : Fin n → Prop} {R : BfsMem n × Unit → BfsMem n × Unit → Prop}
    (hkeeps : ∀ u, P u → ∀ σ τ, R σ τ → KeepsVertex u σ.1 τ.1)
    (hwrites : Stable R fun σ => OnlyWrites s₀ σ.1) (pre : List (Fin n)) :
    Stable R fun σ => SettledUpTo g s₀ P pre σ.1 := by
  intro σ τ hσ hR
  exact ⟨hwrites σ τ hσ.writes hR, fun u hu hup => (hkeeps u hu σ τ hR).settled (hσ.settled u hu hup),
    fun u hu hup => (hkeeps u hu σ τ hR).asleep (hσ.asleep u hu hup)⟩

/-- The next vertex; what is known about the others is framed around it. -/
theorem SettledUpTo.vertex_wp {P : Fin n → Prop} {R : BfsMem n × Unit → BfsMem n × Unit → Prop}
    (hkeeps : ∀ u, P u → ∀ σ τ, R σ τ → KeepsVertex u σ.1 τ.1)
    (hwrites : Stable R fun σ => OnlyWrites s₀ σ.1) {pre : List (Fin n)} {u : Fin n} (hu : P u)
    (hnotin : u ∉ pre) (x : Int) {s : BfsMem n} (h : SettledUpTo g s₀ P pre s) :
    WP (Γ := Unit) R (fun σ τ => OwnVertex u σ.1 τ.1)
      (fun y σ => y = (x + if (awakener g s₀ u).isSome then 1 else 0) ∧
        SettledUpTo g s₀ P (pre ++ [u]) σ.1) (buVertex g u x) (s, ()) := by
  let Rest (σ : BfsMem n × Unit) : Prop := OnlyWrites s₀ σ.1 ∧
    (∀ v, P v → v ∈ pre → Settled g s₀ v σ.1) ∧ ∀ v, P v → v ∉ pre → v ≠ u → Asleep s₀ v σ.1
  have hfront : s.front = s₀.front := by
    have hrest : s = { s₀ with parent := s.parent, curr := s.curr, nextIndex := s.nextIndex } := h.writes.rest
    rw [hrest]
  have hvertex := (buVertex_wp (g := g) (x := x) hfront (h.asleep u hu hnotin)).weaken (U := R)
    (hkeeps u hu) fun _ _ h => h
  have hrest : Rest (s, ()) := ⟨h.writes, h.settled, fun v hv hvp _ => h.asleep v hv hvp⟩
  apply (hvertex.frame hrest ?_ ?_).mono
  · rintro z τ ⟨⟨hz, hself⟩, hτ, hsettled, hasleep⟩
    refine ⟨hz, hτ, fun v hv hvp => ?_, fun v hv hvp => ?_⟩
    · rcases List.mem_append.mp hvp with hvp | hvp
      · exact hsettled v hv hvp
      · exact List.mem_singleton.mp hvp ▸ hself
    · rw [List.mem_append, List.mem_singleton, not_or] at hvp
      exact hasleep v hv hvp.1 hvp.2
  · rintro σ τ ⟨hσ, hsettled, hasleep⟩ hR
    exact ⟨hwrites σ τ hσ hR, fun v hv hvp => (hkeeps v hv σ τ hR).settled (hsettled v hv hvp),
      fun v hv hvp hvu => (hkeeps v hv σ τ hR).asleep (hasleep v hv hvp hvu)⟩
  · rintro σ τ ⟨hσ, hsettled, hasleep⟩ hown
    refine ⟨hown.ownChunk.onlyWrites hσ, fun v hv hvp => ?_, fun v hv hvp hvu => ?_⟩
    · have hsame := hown.other fun heq : v = u => hnotin (heq ▸ hvp)
      exact ⟨hsame.1.trans (hsettled v hv hvp).1, hsame.2.trans (hsettled v hv hvp).2⟩
    · have hsame := hown.other hvu
      exact ⟨hsame.1.trans (hasleep v hv hvp hvu).1, hsame.2.trans (hasleep v hv hvp hvu).2⟩

/-- One chunk, while the others work on theirs and claim more. -/
theorem buStepChunk_wp {C : Nat} (c : Fin C) (x : Int) (s : BfsMem n) (hs : OnlyWrites s₀ s)
    (hpre : ChunkAsleep s₀ c s) :
    WP (Γ := Unit) (fun σ τ => (∃ d : Fin C, d ≠ c ∧ OwnChunk d.val σ.1 τ.1) ∨
        ∃ k, τ.1 = BfsMem.nextIndexLens.set k σ.1)
      (fun σ τ => OwnChunk c.val σ.1 τ.1)
      (fun y σ => y = x + awakeOf g s₀ c ∧ ChunkSettled g s₀ c σ.1)
      (buStepChunk g (c * kChunk) x) (s, ()) := by
  let R (σ τ : BfsMem n × Unit) : Prop := (∃ d : Fin C, d ≠ c ∧ OwnChunk d.val σ.1 τ.1) ∨
    ∃ k, τ.1 = BfsMem.nextIndexLens.set k σ.1
  let value (u : Fin n) : Int := if (awakener g s₀ u).isSome then 1 else 0
  let InChunk (u : Fin n) : Prop := u.val / kChunk = c
  let Inv (pre : List (Fin n)) (y : Int) (σ : BfsMem n × Unit) : Prop :=
    y = x + (pre.map value).sum ∧ SettledUpTo g s₀ InChunk pre σ.1
  have hkeeps (u : Fin n) (hu : InChunk u) (σ τ : BfsMem n × Unit) (hR : R σ τ) :
      KeepsVertex u σ.1 τ.1 := by
    rcases hR with ⟨d, hd, hown⟩ | ⟨k, hk⟩
    · exact hown.keeps fun heq => hd (Fin.ext (heq.symm.trans hu))
    · rw [hk]
      exact ⟨rfl, rfl, rfl⟩
  have hwrites : Stable R fun σ => OnlyWrites s₀ σ.1 := by
    rintro σ τ hσ (⟨d, -, hown⟩ | ⟨k, hk⟩)
    · exact hown.onlyWrites hσ
    · rw [hk]
      exact (chunks_cursorFree (g := g) (C := C)).inv k _ hσ
  have hstable (pre : List (Fin n)) (y : Int) : Stable R (Inv pre y) := fun σ τ hσ hR =>
    ⟨hσ.1, SettledUpTo.stable hkeeps hwrites pre σ τ hσ.2 hR⟩
  have hstart : Inv [] x (s, ()) := ⟨by simp, hs, by simp, fun u hu _ => hpre u hu⟩
  apply (WP.forEach Inv hstart hstable ?_).mono
  · rintro y σ ⟨hy, hσ⟩
    exact ⟨hy, fun u hu => hσ.settled u hu (mem_chunkVertices.mpr hu)⟩
  · rintro pre u post y ⟨s, ⟨⟩⟩ hsplit ⟨hy, hs⟩
    have hu : InChunk u := mem_chunkVertices.mp (hsplit ▸ by simp)
    have hnotin : u ∉ pre := by
      have hnodup := fromTo_nodup n (c * kChunk) (min (c * kChunk + kChunk) n)
      rw [show fromTo n _ _ = _ from hsplit, List.nodup_append] at hnodup
      exact fun hmem => hnodup.2.2 u hmem u (by simp) rfl
    refine ((hs.vertex_wp hkeeps hwrites hu hnotin y).weaken (fun _ _ h => h) fun σ τ hown => ?_).mono ?_
    · have hchunk := hown.ownChunk
      rwa [hu] at hchunk
    · rintro z τ ⟨hz, hτ⟩
      refine ⟨?_, hτ⟩
      rw [hz, hy, List.map_append, List.sum_append, ← Int.add_assoc]
      simp [value]

/-- The chunks together hold every vertex once. -/
theorem sum_awakeOf : ∑ c : Fin (Port.numChunks n kChunk), awakeOf g s₀ c =
    ((Finset.univ.filter fun u => (awakener g s₀ u).isSome).card : Int) := by
  let value (u : Fin n) : Int := if (awakener g s₀ u).isSome then 1 else 0
  have hchunk (c : Nat) : awakeOf g s₀ c = ∑ u : Fin n, if u.val / kChunk = c then value u else 0 := by
    have hnodup : (chunkVertices n (c * kChunk)).Nodup := fromTo_nodup ..
    have hset : (chunkVertices n (c * kChunk)).toFinset =
        Finset.univ.filter fun u : Fin n => u.val / kChunk = c := by
      ext u
      simp [mem_chunkVertices]
    rw [awakeOf, ← List.sum_toFinset _ hnodup, hset, Finset.sum_filter]
  have hvertex (u : Fin n) :
      ∑ c : Fin (Port.numChunks n kChunk), (if u.val / kChunk = c.val then value u else 0) = value u := by
    have hlt : u.val / kChunk < Port.numChunks n kChunk := by
      rw [Port.lt_numChunks (by decide)]
      exact (Nat.div_mul_le_self _ _).trans_lt u.isLt
    rw [Finset.sum_eq_single ⟨u.val / kChunk, hlt⟩ (fun c _ hc => ?_) (by simp)]
    · simp
    · exact if_neg fun heq => hc (Fin.ext heq.symm)
  calc ∑ c : Fin (Port.numChunks n kChunk), awakeOf g s₀ c
      = ∑ c : Fin (Port.numChunks n kChunk), ∑ u : Fin n,
          if u.val / kChunk = c.val then value u else 0 :=
        Finset.sum_congr rfl fun c _ => hchunk c
    _ = ∑ u : Fin n, ∑ c : Fin (Port.numChunks n kChunk),
          if u.val / kChunk = c.val then value u else 0 := Finset.sum_comm
    _ = ∑ u : Fin n, value u := Finset.sum_congr rfl fun u _ => hvertex u
    _ = ((Finset.univ.filter fun u => (awakener g s₀ u).isSome).card : Int) :=
        Finset.sum_boole _ _

/-- What a bottom-up step has done. -/
structure BottomUp (g : Graph n) (s s' : BfsMem n) : Prop where
  front : s'.front = s.front
  queue : s'.queue = s.queue
  parent : ∀ u, s'.parent u = (awakener g s u).elim (s.parent u) fun v => (v.val : Int)
  curr : ∀ u, s'.curr.getBit u = (awakener g s u).isSome
  padded : s'.curr.Padded

theorem buStep_solo (p : Port) {T : Nat} [NeZero T] (g : Graph n) (s : BfsMem n) :
    Solo (buStep p T g) s fun awake s' => BottomUp g s s' ∧
      awake = ((Finset.univ.filter fun u => (awakener g s u).isSome).card : Int) := by
  apply Solo.store_bind
  apply Solo.bind
  have hasleep (u : Fin n) : Asleep s u { s with curr := s.curr.reset } :=
    ⟨rfl, Bitmap.getBit_reset s.curr u⟩
  have hchunk : 0 < kChunk := by decide
  apply (p.claim_solo (T := T) (m := n) hchunk (chunks_separate (g := g)) chunks_cursorFree
    (s := { s with curr := s.curr.reset }) (I := OnlyWrites s) ⟨rfl, s.curr.padded_reset⟩
    (fun _ u _ => hasleep u) fun c x s' hs' hpre => buStepChunk_wp c x s' hs' hpre).mono
  rintro r s' ⟨hsum, hwrites, hsettled⟩
  have hvertex (u : Fin n) : Settled g s u s' := by
    have hlt : u.val / kChunk < Port.numChunks n kChunk := by
      rw [Port.lt_numChunks (by decide)]
      exact (Nat.div_mul_le_self _ _).trans_lt u.isLt
    exact hsettled ⟨_, hlt⟩ u rfl
  apply Solo.ret
  refine ⟨⟨?_, ?_, fun u => (hvertex u).1, fun u => (hvertex u).2, hwrites.padded⟩, ?_⟩
  · rw [hwrites.rest]
  · rw [hwrites.rest]
  · rw [hsum, sum_awakeOf]

end

end Gapbs
