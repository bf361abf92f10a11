import FrankenGraph.Library.Partition
import FrankenGraph.Library.KeySets

/-!
# Strongly connected components by finishing order

A first pass walks along the edges with a stack of entries and exits and notes the order in which
vertices are finished. A second pass takes the vertices, the last finished first, and gathers from
each one that is not yet assigned what leads to it. What it gathers is one strongly connected
component.

Results:
* `Visit.Inv.step`: one round of the first pass
* `forwardPass_spec`: the order in which vertices are finished
* `gather_spec`: what is gathered from a vertex
* `strongComponents_spec`: labels and count of the components
-/

namespace FrankenGraph

open List Option Std.ExtTreeSet

open Std (ExtTreeMap ExtTreeSet)

variable {V ε : Type} [LinearOrder V]

/-! ## The algorithm -/

/-- Push the neighbours that are not marked. All of them must be live. -/
def pushUnmarked {α : Type} (missing : ε) (live marked : BTreeSet V) (entry : V → α)
    (neighbors : List V) (stack : List α) : Except ε (List α) :=
  neighbors.foldlM (fun stack neighbor =>
    if !live.contains neighbor then .error missing
    else if marked.contains neighbor then .ok stack
    else .ok (entry neighbor :: stack)) stack

/-- Where the first pass stands: the vertices seen, those finished, the last one first, and the stack
of entries and exits. -/
structure Visit (V : Type) [LinearOrder V] where
  seen : BTreeSet V
  finished : List V
  stack : List (V × Bool)

/-- One round of the first pass. -/
def Visit.step (missing : ε) (live : BTreeSet V) (forward : V → List V) (s : Visit V) :
    Option (Except ε (Visit V)) :=
  match s.stack with
  | [] => none
  | (vertex, exit) :: rest =>
    if exit then some (.ok { s with finished := vertex :: s.finished, stack := rest })
    else if s.seen.contains vertex then some (.ok { s with stack := rest })
    else some do
      let seen := s.seen.insert vertex
      let stack ← pushUnmarked missing live seen (fun v => (v, false)) (forward vertex)
        ((vertex, true) :: rest)
      return { s with seen, stack }

/-- The rounds that are enough for the walk from one vertex. -/
def visitRounds (live : BTreeSet V) (forward : V → List V) : Nat :=
  1 + (live.toList.map fun v => (forward v).length + 1).sum

/-- The first pass. -/
def forwardPass (missing : ε) (live : BTreeSet V) (forward : V → List V) : Except ε (Visit V) :=
  live.toList.foldlM (fun s root =>
    if s.seen.contains root then .ok s
    else iterateM (Visit.step missing live forward) (visitRounds live forward)
      { s with stack := (root, false) :: s.stack }) { seen := ∅, finished := [], stack := [] }

/-- Where gathering stands. -/
structure Gather (V : Type) [LinearOrder V] where
  assigned : BTreeSet V
  group : BTreeSet V
  pending : List V

/-- One round of gathering. -/
def Gather.step (missing : ε) (live : BTreeSet V) (backward : V → List V) (g : Gather V) :
    Option (Except ε (Gather V)) :=
  match g.pending with
  | [] => none
  | vertex :: rest =>
    if g.assigned.contains vertex then some (.ok { g with pending := rest })
    else some do
      let assigned := g.assigned.insert vertex
      let pending ← pushUnmarked missing live assigned id (backward vertex) rest
      return { assigned, group := g.group.insert vertex, pending }

/-- Gather what leads to a vertex. -/
def gather (missing : ε) (live : BTreeSet V) (backward : V → List V) (assigned : BTreeSet V)
    (root : V) : Except ε (Gather V) :=
  iterateM (Gather.step missing live backward)
    (1 + (live.toList.map fun v => (backward v).length).sum)
    { assigned, group := ∅, pending := [root] }

/-- Where the second pass stands. -/
structure Labelling (V : Type) [LinearOrder V] where
  assigned : BTreeSet V
  labels : BTreeMap V V
  count : Nat

/-- One vertex of the second pass. -/
def Labelling.assign (missing : ε) (live : BTreeSet V) (backward : V → List V) (m : Labelling V)
    (root : V) : Except ε (Labelling V) :=
  if m.assigned.contains root then .ok m
  else do
    let g ← gather missing live backward m.assigned root
    let representative := g.group.first?.getD root
    return {
      assigned := g.assigned
      labels := g.group.toList.foldl (fun labels v => labels.insert v representative) m.labels
      count := m.count + 1 }

/-- Both passes. -/
def strongComponents (missing : ε) (live : BTreeSet V) (forward backward : V → List V) :
    Except ε (Labelling V) := do
  let visit ← forwardPass missing live forward
  visit.finished.foldlM (Labelling.assign missing live backward)
    { assigned := ∅, labels := ∅, count := 0 }

theorem pushUnmarked_spec {α : Type} {missing : ε} {live marked : BTreeSet V} {entry : V → α}
    {neighbors : List V} (hlive : ∀ n ∈ neighbors, n ∈ live) (stack : List α) :
    ∃ pushed : List V,
      pushUnmarked missing live marked entry neighbors stack = .ok (pushed.map entry ++ stack) ∧
      (∀ v, v ∈ pushed ↔ v ∈ neighbors ∧ v ∉ marked) ∧ pushed.length ≤ neighbors.length := by
  unfold pushUnmarked
  induction neighbors generalizing stack with
  | nil => exact ⟨[], rfl, by simp, le_rfl⟩
  | cons n neighbors ih =>
    have hn : live.contains n = true := contains_iff_mem.mpr (hlive n mem_cons_self)
    have hrest := ih fun m hm => hlive m (mem_cons_of_mem _ hm)
    rw [foldlM_cons, hn]
    by_cases hmarked : n ∈ marked
    · rw [contains_iff_mem.mpr hmarked]
      obtain ⟨pushed, hok, hpushed, hlength⟩ := hrest stack
      refine ⟨pushed, hok, fun v => ?_, Nat.le_succ_of_le hlength⟩
      rw [hpushed, mem_cons]
      constructor
      · exact fun hv => ⟨.inr hv.1, hv.2⟩
      · rintro ⟨rfl | hv, hnot⟩
        · exact absurd hmarked hnot
        · exact ⟨hv, hnot⟩
    · rw [Bool.eq_false_iff.mpr fun hc => hmarked (contains_iff_mem.mp hc)]
      obtain ⟨pushed, hok, hpushed, hlength⟩ := hrest (entry n :: stack)
      refine ⟨pushed ++ [n], ?_, fun v => ?_, ?_⟩
      · rw [map_append, append_assoc]
        exact hok
      · rw [mem_append, hpushed, mem_singleton, mem_cons]
        constructor
        · rintro (hv | rfl)
          · exact ⟨.inr hv.1, hv.2⟩
          · exact ⟨.inl rfl, hmarked⟩
        · rintro ⟨rfl | hv, hnot⟩
          · exact .inr rfl
          · exact .inl ⟨hv, hnot⟩
      · rw [length_append, length_cons, length_cons]
        exact Nat.succ_le_succ hlength

/-! ## The order in which vertices are finished -/

/-- A step from one of the given vertices. -/
def Within (forward : V → List V) (inside : List V) (a b : V) : Prop :=
  a ∈ inside ∧ b ∈ forward a

/-- What leads to a vertex through vertices finished before it can be reached from it. -/
def Ordered (forward : V → List V) : List V → Prop
  | [] => True
  | r :: earlier =>
    (∀ x, Relation.ReflTransGen (Within forward earlier) x r → Connected forward r x) ∧
      Ordered forward earlier

variable {forward : V → List V} {live : BTreeSet V}

omit [LinearOrder V] in
/-- A path through one more vertex stays without it, or leads to it without it. -/
theorem within_cons {inside : List V} {v p g : V}
    (h : Relation.ReflTransGen (Within forward (v :: inside)) p g) :
    Relation.ReflTransGen (Within forward inside) p g ∨
      Relation.ReflTransGen (Within forward inside) p v := by
  induction h using Relation.ReflTransGen.head_induction_on with
  | refl => exact .inl .refl
  | @head a b hab _ ih =>
    rcases mem_cons.mp hab.1 with rfl | ha
    · exact .inr .refl
    · exact ih.imp (.head ⟨ha, hab.2⟩) (.head ⟨ha, hab.2⟩)

/-- What holds between the rounds of the first pass. -/
structure Visit.Inv (live : BTreeSet V) (forward : V → List V) (s : Visit V) : Prop where
  stack_live : ∀ e ∈ s.stack, e.1 ∈ live
  seen_live : ∀ v ∈ s.seen, v ∈ live
  seen_iff : ∀ v, v ∈ s.seen ↔ v ∈ s.finished ∨ (v, true) ∈ s.stack
  closed : ∀ v ∈ s.finished, ∀ w ∈ forward v, w ∈ s.seen
  -- the neighbours of an open vertex are seen or above it, and all above it is reached from it
  above : ∀ above g below, s.stack = above ++ (g, true) :: below →
    (∀ w ∈ forward g, w ∈ s.seen ∨ (w, false) ∈ above) ∧ ∀ e ∈ above, Connected forward g e.1
  -- what leads to an open vertex through finished ones is reached from it
  order : ∀ g, (g, true) ∈ s.stack →
    ∀ p, Relation.ReflTransGen (Within forward s.finished) p g → Connected forward g p
  ordered : Ordered forward s.finished

/-- The rounds of the first pass that are still to come. -/
def Visit.weight (live : BTreeSet V) (forward : V → List V) (s : Visit V) : Nat :=
  s.stack.length + unmarked live s.seen fun v => (forward v).length + 1

namespace Visit

variable {s : Visit V} {v : V} {rest : List (V × Bool)}

theorem Inv.finish (h : s.Inv live forward) (hstack : s.stack = (v, true) :: rest) :
    Inv live forward { s with finished := v :: s.finished, stack := rest } := by
  have hmem : ∀ {e}, e ∈ rest → e ∈ s.stack := fun he => hstack ▸ mem_cons_of_mem _ he
  have hv : (v, true) ∈ s.stack := hstack ▸ mem_cons_self
  refine ⟨fun e he => h.stack_live e (hmem he), h.seen_live, fun u => ?_, fun u hu w hw => ?_,
    fun above g below hsplit => ?_, fun g hg p hp => ?_, ⟨h.order v hv, h.ordered⟩⟩
  · rw [h.seen_iff, hstack, mem_cons, mem_cons, Prod.mk.injEq, and_iff_left rfl]
    tauto
  · rcases mem_cons.mp hu with rfl | hu
    · rcases (h.above [] u rest hstack).1 w hw with hw | hw
      · exact hw
      · cases hw
    · exact h.closed u hu w hw
  · obtain ⟨hseen, hreached⟩ := h.above ((v, true) :: above) g below
      (hstack.trans (congrArg (cons (v, true)) hsplit))
    refine ⟨fun w hw => (hseen w hw).imp_right fun hw => ?_, fun e he =>
      hreached e (mem_cons_of_mem _ he)⟩
    rcases mem_cons.mp hw with heq | hw
    · cases heq
    · exact hw
  · obtain ⟨above, below, hsplit⟩ := append_of_mem hg
    have hgv : Connected forward g v := (h.above ((v, true) :: above) g below
      (hstack.trans (congrArg (cons (v, true)) hsplit))).2 (v, true) mem_cons_self
    rcases within_cons hp with hp | hp
    · exact h.order g (hmem hg) p hp
    · exact hgv.trans (h.order v hv p hp)

theorem Inv.skip (h : s.Inv live forward) (hstack : s.stack = (v, false) :: rest)
    (hv : v ∈ s.seen) :
    Inv live forward { s with stack := rest } := by
  have hmem : ∀ {e}, e ∈ rest → e ∈ s.stack := fun he => hstack ▸ mem_cons_of_mem _ he
  refine ⟨fun e he => h.stack_live e (hmem he), h.seen_live, fun u => ?_, h.closed,
    fun above g below hsplit => ?_, fun g hg => h.order g (hmem hg), h.ordered⟩
  · rw [h.seen_iff, hstack, mem_cons]
    simp
  · obtain ⟨hseen, hreached⟩ := h.above ((v, false) :: above) g below
      (hstack.trans (congrArg (cons (v, false)) hsplit))
    refine ⟨fun w hw => ?_, fun e he => hreached e (mem_cons_of_mem _ he)⟩
    rcases hseen w hw with hw | hw
    · exact .inl hw
    · rcases mem_cons.mp hw with heq | hw
      · cases heq
        exact .inl hv
      · exact .inr hw

omit [LinearOrder V] in
/-- An open vertex of the stack after a vertex is entered is that vertex, or was open before. -/
theorem split_entered {pushed : List V} {g : V} {above below : List (V × Bool)}
    (hsplit : pushed.map (fun w => (w, false)) ++ (v, true) :: rest = above ++ (g, true) :: below) :
    (g = v ∧ above = pushed.map fun w => (w, false)) ∨
      ∃ between, above = pushed.map (fun w => (w, false)) ++ (v, true) :: between ∧
        rest = between ++ (g, true) :: below := by
  rcases append_eq_append_iff.mp hsplit with ⟨between, rfl, hrest⟩ | ⟨between, hpushed, hbelow⟩
  · cases between with
    | nil =>
      cases hrest
      exact .inl ⟨rfl, append_nil _⟩
    | cons e between =>
      cases hrest
      exact .inr ⟨between, rfl, rfl⟩
  · cases between with
    | nil =>
      cases hbelow
      exact .inl ⟨rfl, by rw [hpushed, append_nil]⟩
    | cons e between =>
      cases hbelow
      have hmem : (g, true) ∈ pushed.map fun w => (w, false) := by
        rw [hpushed]
        exact mem_append_right _ mem_cons_self
      obtain ⟨w, -, heq⟩ := mem_map.mp hmem
      cases heq

theorem Inv.enter (hlive : ∀ v ∈ live, ∀ w ∈ forward v, w ∈ live) {pushed : List V}
    (h : s.Inv live forward) (hstack : s.stack = (v, false) :: rest) (hv : v ∉ s.seen)
    (hpushed : ∀ w, w ∈ pushed ↔ w ∈ forward v ∧ w ∉ s.seen.insert v) :
    Inv live forward { s with
      seen := s.seen.insert v
      stack := pushed.map (fun w => (w, false)) ++ (v, true) :: rest } := by
  have hmem : ∀ {e}, e ∈ rest → e ∈ s.stack := fun he => hstack ▸ mem_cons_of_mem _ he
  have hvlive : v ∈ live := h.stack_live (v, false) (hstack ▸ mem_cons_self)
  have hopen : ∀ g, (g, true) ∈ pushed.map (fun w => (w, false)) ++ (v, true) :: rest ↔
      g = v ∨ (g, true) ∈ rest := by
    intro g
    simp
  refine ⟨fun e he => ?_, fun u hu => ?_, fun u => ?_, fun u hu w hw => ?_,
    fun above g below hsplit => ?_, fun g hg p hp => ?_, h.ordered⟩
  · rcases mem_append.mp he with he | he
    · obtain ⟨w, hw, rfl⟩ := mem_map.mp he
      exact hlive v hvlive w ((hpushed w).mp hw).1
    · rcases mem_cons.mp he with rfl | he
      · exact hvlive
      · exact h.stack_live e (hmem he)
  · rcases BTreeSet.mem_insert_iff.mp hu with rfl | hu
    · exact hvlive
    · exact h.seen_live u hu
  · rw [BTreeSet.mem_insert_iff, h.seen_iff, hopen, hstack, mem_cons]
    simp only [Prod.mk.injEq, Bool.true_eq_false, and_false, false_or]
    tauto
  · exact BTreeSet.mem_insert_iff.mpr (.inr (h.closed u hu w hw))
  · rcases split_entered hsplit with ⟨rfl, rfl⟩ | ⟨between, rfl, hrest⟩
    · refine ⟨fun w hw => ?_, fun e he => ?_⟩
      · by_cases hseen : w ∈ s.seen.insert g
        · exact .inl hseen
        · exact .inr (mem_map.mpr ⟨w, (hpushed w).mpr ⟨hw, hseen⟩, rfl⟩)
      · obtain ⟨w, hw, rfl⟩ := mem_map.mp he
        exact .single ((hpushed w).mp hw).1
    · obtain ⟨hseen, hreached⟩ := h.above ((v, false) :: between) g below
        (hstack.trans (congrArg (cons (v, false)) hrest))
      have hgv : Connected forward g v := hreached (v, false) mem_cons_self
      refine ⟨fun w hw => ?_, fun e he => ?_⟩
      · rcases hseen w hw with hw | hw
        · exact .inl (BTreeSet.mem_insert_iff.mpr (.inr hw))
        · rcases mem_cons.mp hw with heq | hw
          · cases heq
            exact .inl (BTreeSet.mem_insert_iff.mpr (.inl rfl))
          · exact .inr (mem_append_right _ (mem_cons_of_mem _ hw))
      · rcases mem_append.mp he with he | he
        · obtain ⟨w, hw, rfl⟩ := mem_map.mp he
          exact hgv.tail ((hpushed w).mp hw).1
        · rcases mem_cons.mp he with rfl | he
          · exact hgv
          · exact hreached e (mem_cons_of_mem _ he)
  · rcases (hopen g).mp hg with rfl | hg
    · -- a path to a vertex that was not seen cannot end with a finished one
      rcases Relation.ReflTransGen.cases_tail hp with heq | ⟨y, -, hy⟩
      · exact heq ▸ .refl
      · exact absurd (h.closed y hy.1 g hy.2) hv
    · exact h.order g (hmem hg) p hp

theorem Inv.step (hlive : ∀ v ∈ live, ∀ w ∈ forward v, w ∈ live) {missing : ε}
    (h : s.Inv live forward) {next : Except ε (Visit V)}
    (hnext : s.step missing live forward = some next) :
    ∃ s', next = .ok s' ∧ s'.Inv live forward ∧ (∀ v ∈ s.seen, v ∈ s'.seen) ∧
      (∀ v, (v, false) ∈ s.stack → (v, false) ∈ s'.stack ∨ v ∈ s'.seen) ∧
      s'.weight live forward < s.weight live forward := by
  unfold Visit.step at hnext
  cases hstack : s.stack with
  | nil =>
    rw [hstack] at hnext
    cases hnext
  | cons e rest =>
    obtain ⟨v, exit⟩ := e
    rw [hstack] at hnext
    dsimp only at hnext
    cases exit with
    | true =>
      rw [if_pos rfl] at hnext
      cases hnext
      refine ⟨_, rfl, h.finish hstack, fun u hu => hu, fun u hu => ?_, ?_⟩
      · rcases mem_cons.mp hu with heq | hu
        · cases heq
        · exact .inl hu
      · unfold weight
        dsimp only
        rw [hstack, length_cons]
        omega
    | false =>
      rw [if_neg Bool.false_ne_true] at hnext
      by_cases hv : v ∈ s.seen
      · rw [if_pos (contains_iff_mem.mpr hv)] at hnext
        cases hnext
        refine ⟨_, rfl, h.skip hstack hv, fun u hu => hu, fun u hu => ?_, ?_⟩
        · rcases mem_cons.mp hu with heq | hu
          · cases heq
            exact .inr hv
          · exact .inl hu
        · unfold weight
          dsimp only
          rw [hstack, length_cons]
          omega
      · rw [if_neg fun hc => hv (contains_iff_mem.mp hc)] at hnext
        have hvlive : v ∈ live := h.stack_live (v, false) (hstack ▸ mem_cons_self)
        obtain ⟨pushed, hok, hpushed, hlength⟩ := pushUnmarked_spec (hlive v hvlive)
          (((v, true) :: rest : List (V × Bool)))
        rw [hok] at hnext
        cases hnext
        refine ⟨_, rfl, h.enter hlive hstack hv hpushed, fun u hu => ?_, fun u hu => ?_, ?_⟩
        · exact BTreeSet.mem_insert_iff.mpr (.inr hu)
        · rcases mem_cons.mp hu with heq | hu
          · cases heq
            exact .inr (BTreeSet.mem_insert_iff.mpr (.inl rfl))
          · exact .inl (mem_append_right _ (mem_cons_of_mem _ hu))
        · unfold weight
          dsimp only
          rw [hstack, unmarked_insert hvlive hv, length_append, length_map,
            length_cons, length_cons]
          omega

end Visit

/-- The walk from one vertex sees it, and leaves the stack empty. -/
theorem visit_root (hlive : ∀ v ∈ live, ∀ w ∈ forward v, w ∈ live) (missing : ε) {s : Visit V}
    (h : s.Inv live forward) (hempty : s.stack = []) {root : V} (hroot : root ∈ live) :
    ∃ s', iterateM (Visit.step missing live forward) (visitRounds live forward)
        { s with stack := (root, false) :: s.stack } = .ok s' ∧ s'.Inv live forward ∧
      s'.stack = [] ∧ root ∈ s'.seen ∧ ∀ v ∈ s.seen, v ∈ s'.seen := by
  have hstart : Visit.Inv live forward { s with stack := (root, false) :: s.stack } := by
    rw [hempty]
    refine ⟨fun e he => ?_, h.seen_live, fun v => ?_, h.closed, fun above g below hsplit => ?_,
      fun g hg => ?_, h.ordered⟩
    · rw [mem_singleton.mp he]
      exact hroot
    · rw [h.seen_iff, hempty]
      simp
    · have hmem : (g, true) ∈ above ++ (g, true) :: below :=
        mem_append_right _ mem_cons_self
      rw [← hsplit] at hmem
      cases mem_singleton.mp hmem
    · cases mem_singleton.mp hg
  have hrounds : Visit.weight live forward { s with stack := (root, false) :: s.stack } ≤
      visitRounds live forward := by
    unfold Visit.weight visitRounds
    rw [hempty]
    exact Nat.add_le_add_left (unmarked_le _ _ _) _
  have hstep : ∀ (s₁ : Visit V) (next : Except ε (Visit V)),
      (s₁.Inv live forward ∧ ((root, false) ∈ s₁.stack ∨ root ∈ s₁.seen) ∧
        ∀ v ∈ s.seen, v ∈ s₁.seen) → s₁.step missing live forward = some next →
      ∃ s₂ : Visit V, next = .ok s₂ ∧ (s₂.Inv live forward ∧ ((root, false) ∈ s₂.stack ∨ root ∈ s₂.seen) ∧
        ∀ v ∈ s.seen, v ∈ s₂.seen) ∧ s₂.weight live forward < s₁.weight live forward := by
    rintro s₁ next ⟨hinv, hroot₁, hkept⟩ hnext
    obtain ⟨s₂, rfl, hinv₂, hgrown, hcarried, hweight⟩ := hinv.step hlive hnext
    refine ⟨s₂, rfl, ⟨hinv₂, ?_, fun v hv => hgrown v (hkept v hv)⟩, hweight⟩
    rcases hroot₁ with hstack | hseen
    · exact hcarried root hstack
    · exact .inr (hgrown root hseen)
  obtain ⟨s', hok, ⟨hinv, hroot', hkept⟩, hnone⟩ := iterateM_spec (Visit.weight live forward) hstep
    ⟨hstart, .inl mem_cons_self, fun v hv => hv⟩ hrounds
  have hdone : s'.stack = [] := by
    unfold Visit.step at hnone
    cases hstack : s'.stack with
    | nil => rfl
    | cons e rest =>
      rw [hstack] at hnone
      dsimp only at hnone
      split_ifs at hnone
  refine ⟨s', hok, hinv, hdone, ?_, hkept⟩
  rw [hdone] at hroot'
  exact hroot'.resolve_left not_mem_nil

/-- The first pass finishes the live vertices, in order. -/
theorem forwardPass_spec (hlive : ∀ v ∈ live, ∀ w ∈ forward v, w ∈ live) (missing : ε) :
    ∃ s, forwardPass missing live forward = .ok s ∧ (∀ v, v ∈ s.finished ↔ v ∈ live) ∧
      Ordered forward s.finished := by
  have hloop : ∀ (l : List V) (s : Visit V), (∀ v ∈ l, v ∈ live) → s.Inv live forward →
      s.stack = [] → ∃ s', l.foldlM (fun s root =>
        if s.seen.contains root then .ok s
        else iterateM (Visit.step missing live forward) (visitRounds live forward)
          { s with stack := (root, false) :: s.stack }) s = .ok s' ∧ s'.Inv live forward ∧
        s'.stack = [] ∧ (∀ v ∈ s.seen, v ∈ s'.seen) ∧ ∀ v ∈ l, v ∈ s'.seen := by
    intro l
    induction l with
    | nil => exact fun s _ h hempty => ⟨s, rfl, h, hempty, fun v hv => hv,
        fun v hv => absurd hv not_mem_nil⟩
    | cons root l ih =>
      intro s hl h hempty
      have hrest := fun s h hempty =>
        ih s (fun v hv => hl v (mem_cons_of_mem _ hv)) h hempty
      rw [foldlM_cons]
      by_cases hseen : root ∈ s.seen
      · rw [if_pos (contains_iff_mem.mpr hseen)]
        obtain ⟨s', hok, hinv, hempty', hkept, hall⟩ := hrest s h hempty
        refine ⟨s', hok, hinv, hempty', hkept, fun v hv => ?_⟩
        rcases mem_cons.mp hv with rfl | hv
        · exact hkept v hseen
        · exact hall v hv
      · rw [if_neg fun hc => hseen (contains_iff_mem.mp hc)]
        obtain ⟨s₁, hok₁, hinv₁, hempty₁, hroot, hkept₁⟩ :=
          visit_root hlive missing h hempty (hl root mem_cons_self)
        obtain ⟨s', hok, hinv, hempty', hkept, hall⟩ := hrest s₁ hinv₁ hempty₁
        rw [hok₁]
        refine ⟨s', hok, hinv, hempty', fun v hv => hkept v (hkept₁ v hv), fun v hv => ?_⟩
        rcases mem_cons.mp hv with rfl | hv
        · exact hkept v hroot
        · exact hall v hv
  have hinit : Visit.Inv live forward { seen := ∅, finished := [], stack := [] } := by
    refine ⟨fun e he => absurd he not_mem_nil, fun v hv => absurd hv not_mem_empty, fun v => ?_,
      fun v hv => absurd hv not_mem_nil, fun above g below hsplit => ?_,
      fun g hg => absurd hg not_mem_nil, trivial⟩
    · simp [not_mem_empty]
    · cases above <;> cases hsplit
  obtain ⟨s, hok, hinv, hempty, -, hall⟩ := hloop live.toList _
    (fun v hv => mem_toList.mp hv) hinit rfl
  refine ⟨s, hok, fun v => ?_, hinv.ordered⟩
  have hseen : v ∈ s.seen ↔ v ∈ s.finished := by
    rw [hinv.seen_iff, hempty]
    simp
  rw [← hseen]
  exact ⟨hinv.seen_live v, fun hv => hall v (mem_toList.mpr hv)⟩

/-! ## Gathering -/

variable {backward : V → List V}

/-- What holds between the rounds of gathering what leads to a vertex. -/
structure Gather.Inv (live assigned : BTreeSet V) (forward backward : V → List V) (root : V)
    (g : Gather V) : Prop where
  assigned_iff : ∀ v, v ∈ g.assigned ↔ v ∈ assigned ∨ v ∈ g.group
  fresh : ∀ v ∈ g.group, v ∉ assigned
  sound : ∀ v, v ∈ g.group ∨ v ∈ g.pending → v ∈ live ∧ Connected forward v root
  closed : ∀ v ∈ g.group, ∀ u ∈ backward v, u ∈ g.assigned ∨ u ∈ g.pending
  root : root ∈ g.assigned ∨ root ∈ g.pending

/-- The rounds of gathering that are still to come. -/
def Gather.weight (live : BTreeSet V) (backward : V → List V) (g : Gather V) : Nat :=
  g.pending.length + unmarked live g.assigned fun v => (backward v).length

variable (hback : ∀ a b, a ∈ backward b ↔ b ∈ forward a)
  (hlive : ∀ a b, b ∈ forward a → (a ∈ live ↔ b ∈ live))

section Passes

include hback hlive

/-- One round of gathering. -/
theorem Gather.Inv.step {missing : ε} {assigned : BTreeSet V} {root : V} {g : Gather V}
    (h : g.Inv live assigned forward backward root) {next : Except ε (Gather V)}
    (hnext : g.step missing live backward = some next) :
    ∃ g', next = .ok g' ∧ g'.Inv live assigned forward backward root ∧
      g'.weight live backward < g.weight live backward := by
  unfold Gather.step at hnext
  cases hpending : g.pending with
  | nil =>
    rw [hpending] at hnext
    cases hnext
  | cons v rest =>
    rw [hpending] at hnext
    dsimp only at hnext
    have hv := h.sound v (.inr (hpending ▸ List.mem_cons_self))
    have hrest : ∀ {u}, u ∈ rest → u ∈ g.pending := fun hu => hpending ▸ List.mem_cons_of_mem _ hu
    by_cases hassigned : v ∈ g.assigned
    · rw [if_pos (ExtTreeSet.contains_iff_mem.mpr hassigned)] at hnext
      cases hnext
      have hcarry : ∀ u, u ∈ g.assigned ∨ u ∈ g.pending → u ∈ g.assigned ∨ u ∈ rest := by
        rintro u (hu | hu)
        · exact .inl hu
        · rw [hpending] at hu
          rcases List.mem_cons.mp hu with rfl | hu
          · exact .inl hassigned
          · exact .inr hu
      refine ⟨_, rfl, ⟨h.assigned_iff, h.fresh, fun u hu => h.sound u (hu.imp_right hrest),
        fun u hu w hw => hcarry w (h.closed u hu w hw), hcarry root h.root⟩, ?_⟩
      unfold Gather.weight
      dsimp only
      rw [hpending, List.length_cons]
      omega
    · rw [if_neg fun hc => hassigned (ExtTreeSet.contains_iff_mem.mp hc)] at hnext
      have hneighbors : ∀ u ∈ backward v, u ∈ live := fun u hu =>
        (hlive u v ((hback u v).mp hu)).mpr hv.1
      obtain ⟨pushed, hok, hpushed, hlength⟩ := pushUnmarked_spec hneighbors rest
      rw [hok] at hnext
      cases hnext
      have hcarry : ∀ u, u ∈ g.assigned ∨ u ∈ g.pending →
          u ∈ g.assigned.insert v ∨ u ∈ pushed.map id ++ rest := by
        rintro u (hu | hu)
        · exact .inl (BTreeSet.mem_insert_iff.mpr (.inr hu))
        · rw [hpending] at hu
          rcases List.mem_cons.mp hu with rfl | hu
          · exact .inl (BTreeSet.mem_insert_iff.mpr (.inl rfl))
          · exact .inr (List.mem_append_right _ hu)
      refine ⟨_, rfl, ⟨fun u => ?_, fun u hu => ?_, fun u hu => ?_, fun u hu w hw => ?_,
        hcarry root h.root⟩, ?_⟩
      · rw [BTreeSet.mem_insert_iff, BTreeSet.mem_insert_iff, h.assigned_iff]
        tauto
      · rcases BTreeSet.mem_insert_iff.mp hu with rfl | hu
        · exact fun hold => hassigned ((h.assigned_iff v).mpr (.inl hold))
        · exact h.fresh u hu
      · rcases hu with hu | hu
        · rcases BTreeSet.mem_insert_iff.mp hu with rfl | hu
          · exact hv
          · exact h.sound u (.inl hu)
        · rcases List.mem_append.mp hu with hu | hu
          · rw [List.map_id, hpushed] at hu
            exact ⟨hneighbors u hu.1, .head ((hback u v).mp hu.1) hv.2⟩
          · exact h.sound u (.inr (hrest hu))
      · rcases BTreeSet.mem_insert_iff.mp hu with rfl | hu
        · by_cases hw' : w ∈ g.assigned.insert v
          · exact .inl hw'
          · refine .inr (List.mem_append_left _ ?_)
            rw [List.map_id]
            exact (hpushed w).mpr ⟨hw, hw'⟩
        · exact hcarry w (h.closed u hu w hw)
      · unfold Gather.weight
        dsimp only
        rw [hpending, unmarked_insert hv.1 hassigned, List.length_append, List.length_map,
          List.length_cons]
        omega

/-- From a vertex that is not assigned, everything is gathered that leads to it and is not
assigned. -/
theorem gather_spec (missing : ε) {assigned : BTreeSet V}
    (hclosed : ∀ b ∈ assigned, ∀ a, b ∈ forward a → a ∈ assigned) {root : V} (hroot : root ∈ live)
    (hnew : root ∉ assigned) :
    ∃ g, gather missing live backward assigned root = .ok g ∧
      (∀ v, v ∈ g.assigned ↔ v ∈ assigned ∨ v ∈ g.group) ∧
      (∀ v, v ∈ g.group ↔ v ∉ assigned ∧ Connected forward v root) ∧
      ∀ v ∈ g.group, v ∈ live := by
  have hstart : Gather.Inv live assigned forward backward root
      { assigned, group := ∅, pending := [root] } := by
    refine ⟨fun v => ?_, fun v hv => absurd hv not_mem_empty, fun v hv => ?_,
      fun v hv => absurd hv not_mem_empty, .inr mem_cons_self⟩
    · simp [not_mem_empty]
    · rcases hv with hv | hv
      · exact absurd hv not_mem_empty
      · rw [mem_singleton.mp hv]
        exact ⟨hroot, .refl⟩
  obtain ⟨g, hok, hinv, hnone⟩ := iterateM_spec (Gather.weight live backward)
    (fun g next h hnext => h.step hback hlive hnext) hstart
    (Nat.add_le_add_left (unmarked_le live assigned _) 1)
  have hdone : g.pending = [] := by
    unfold Gather.step at hnone
    cases hpending : g.pending with
    | nil => rfl
    | cons v rest =>
      rw [hpending] at hnone
      dsimp only at hnone
      split_ifs at hnone
  have hpending : ∀ u, u ∉ g.pending := fun u => by
    rw [hdone]
    exact not_mem_nil
  have hgroup : ∀ {u}, u ∈ g.assigned ∨ u ∈ g.pending → u ∉ assigned → u ∈ g.group := by
    intro u hu hnot
    exact ((hinv.assigned_iff u).mp (hu.resolve_right (hpending u))).resolve_left hnot
  have hcomplete : ∀ v, Connected forward v root → v ∉ assigned → v ∈ g.group := by
    intro v hconnected
    induction hconnected using Relation.ReflTransGen.head_induction_on with
    | refl => exact fun _ => hgroup hinv.root hnew
    | @head a b hab _ ih =>
      intro hnot
      have hb : b ∉ assigned := fun hb => hnot (hclosed b hb a hab)
      exact hgroup (hinv.closed b (ih hb) a ((hback a b).mpr hab)) hnot
  exact ⟨g, hok, hinv.assigned_iff, fun v => ⟨fun hv => ⟨hinv.fresh v hv,
    (hinv.sound v (.inl hv)).2⟩, fun hv => hcomplete v hv.2 hv.1⟩, fun v hv =>
    (hinv.sound v (.inl hv)).1⟩

end Passes

/-! ## Components -/

/-- Two vertices lead to each other. -/
def Strong (forward : V → List V) (a b : V) : Prop :=
  Connected forward a b ∧ Connected forward b a

/-- The least vertex of the strongly connected component of a vertex. -/
def StrongLeader (forward : V → List V) (v r : V) : Prop :=
  IsLeast {u | Strong forward v u} r

variable {a b : V}

omit [LinearOrder V] in
theorem Strong.symm (h : Strong forward a b) : Strong forward b a :=
  ⟨h.2, h.1⟩

omit [LinearOrder V] in
theorem Strong.trans {c : V} (h : Strong forward a b) (h' : Strong forward b c) :
    Strong forward a c :=
  ⟨h.1.trans h'.1, h'.2.trans h.2⟩

theorem strongLeader_congr {r : V} (h : Strong forward a b) :
    StrongLeader forward a r ↔ StrongLeader forward b r := by
  have hset : {u | Strong forward a u} = {u | Strong forward b u} :=
    Set.ext fun u => ⟨h.symm.trans, h.trans⟩
  rw [StrongLeader, StrongLeader, hset]

omit [LinearOrder V] in
/-- Outside a part that no step enters, strong components do not depend on that part. -/
theorem Strong.of_outside {f g : V → List V} {inside : V → Prop}
    (hout : ∀ a b, ¬ inside a → b ∈ f a → ¬ inside b)
    (hsame : ∀ a b, ¬ inside a → b ∈ f a → b ∈ g a) {v u : V} (hv : ¬ inside v)
    (h : Strong f v u) : Strong g v u := by
  obtain ⟨hforward, hu⟩ := h.1.of_outside hout hsame hv
  exact ⟨hforward, (h.2.of_outside hout hsame hu).1⟩

omit [LinearOrder V] in
theorem Connected.inside {f : V → List V} {inside : V → Prop}
    (hclosed : ∀ a b, inside a → b ∈ f a → inside b) {v u : V} (hv : inside v)
    (h : Connected f v u) : inside u := by
  induction h with
  | refl => exact hv
  | tail _ hbc ih => exact hclosed _ _ ih hbc

theorem strongLeader_of_mem_iff {f g : V → List V} (hfg : ∀ a b, b ∈ f a ↔ b ∈ g a) (v r : V) :
    StrongLeader f v r ↔ StrongLeader g v r := by
  unfold StrongLeader Strong
  rw [connected_congr hfg]

/-- The distinct values of a map. -/
def values (labels : BTreeMap V V) : Finset V :=
  (labels.toList.map Prod.snd).toFinset

theorem mem_values {labels : BTreeMap V V} {r : V} : r ∈ values labels ↔ ∃ v : V, labels[v]? = some r := by
  rw [values, List.mem_toFinset, List.mem_map]
  constructor
  · rintro ⟨⟨v, r'⟩, hmem, rfl⟩
    exact ⟨v, ExtTreeMap.mem_toList_iff_getElem?_eq_some.mp hmem⟩
  · rintro ⟨v, hv⟩
    exact ⟨(v, r), ExtTreeMap.mem_toList_iff_getElem?_eq_some.mpr hv, rfl⟩

theorem lookup_foldl_label (l : List V) (r : V) (labels : BTreeMap V V) (v : V) :
    (l.foldl (fun labels v => labels.insert v r) labels)[v]? =
      if v ∈ l then some r else labels[v]? := by
  induction l generalizing labels with
  | nil => simp
  | cons u l ih =>
    rw [foldl_cons, ih, BTreeMap.lookup_insert]
    by_cases huv : u = v
    · simp [huv]
    · simp [huv, Ne.symm huv]

/-- What holds between the rounds of the second pass. -/
structure Labelling.Inv (live : BTreeSet V) (forward : V → List V) (m : Labelling V) : Prop where
  assigned_live : ∀ v ∈ m.assigned, v ∈ live
  closed : ∀ b ∈ m.assigned, ∀ a, b ∈ forward a → a ∈ m.assigned
  labels_iff : ∀ v r : V, m.labels[v]? = some r ↔ v ∈ m.assigned ∧ StrongLeader forward v r
  labelled : ∀ v ∈ m.assigned, ∃ r, m.labels[v]? = some r
  count_eq : m.count = (values m.labels).card

section Assign

variable {m : Labelling V}

theorem Labelling.Inv.assigned_of_connected (h : m.Inv live forward) {a b : V}
    (hab : Connected forward a b) (hb : b ∈ m.assigned) : a ∈ m.assigned := by
  induction hab using Relation.ReflTransGen.head_induction_on with
  | refl => exact hb
  | head hac _ ih => exact h.closed _ ih _ hac

include hlive in
/-- What leads to the vertex finished last of those not assigned is in its component. -/
theorem Labelling.Inv.strong_of_connected (h : m.Inv live forward) {root : V} {earlier : List V}
    (hordered : Ordered forward (root :: earlier))
    (hleft : ∀ v ∈ live, v ∉ m.assigned → v ∈ root :: earlier) {v : V} (hv : v ∈ live)
    (hnot : v ∉ m.assigned) (hconnected : Connected forward v root) : Strong forward v root := by
  refine ⟨hconnected, hordered.1 v ?_⟩
  induction hconnected using Relation.ReflTransGen.head_induction_on with
  | refl => exact .refl
  | @head a b hab _ ih =>
    rcases mem_cons.mp (hleft a hv hnot) with rfl | ha
    · exact .refl
    · exact .head ⟨ha, hab⟩ (ih ((hlive a b hab).mp hv) fun hb => hnot (h.closed b hb a hab))

include hback hlive

/-- One vertex of the second pass. -/
theorem Labelling.Inv.assign (missing : ε) (h : m.Inv live forward) {root : V} {earlier : List V}
    (hroot : root ∈ live) (hordered : Ordered forward (root :: earlier))
    (hleft : ∀ v ∈ live, v ∉ m.assigned → v ∈ root :: earlier) :
    ∃ m', m.assign missing live backward root = .ok m' ∧ m'.Inv live forward ∧
      ∀ v ∈ live, v ∉ m'.assigned → v ∈ earlier := by
  unfold Labelling.assign
  by_cases hassigned : root ∈ m.assigned
  · rw [if_pos (ExtTreeSet.contains_iff_mem.mpr hassigned)]
    refine ⟨m, rfl, h, fun v hv hnot => ?_⟩
    rcases List.mem_cons.mp (hleft v hv hnot) with rfl | hv
    · exact absurd hassigned hnot
    · exact hv
  · rw [if_neg fun hc => hassigned (ExtTreeSet.contains_iff_mem.mp hc)]
    obtain ⟨g, hok, hgassigned, hgroup, hglive⟩ :=
      gather_spec hback hlive missing h.closed hroot hassigned
    have hstrong : ∀ v, v ∈ g.group ↔ Strong forward v root := by
      intro v
      constructor
      · intro hv
        obtain ⟨hnot, hconnected⟩ := (hgroup v).mp hv
        exact h.strong_of_connected hlive hordered hleft (hglive v hv) hnot hconnected
      · intro hv
        exact (hgroup v).mpr ⟨fun hold => hassigned (h.assigned_of_connected hv.2 hold), hv.1⟩
    -- the least member of the group
    obtain ⟨rep, hrep⟩ : ∃ rep, g.group.first? = some rep := by
      cases hfirst : g.group.first? with
      | none =>
        have hmem := (hstrong root).mpr ⟨.refl, .refl⟩
        exact absurd hmem (BTreeSet.notMem_of_first?_eq_none hfirst root)
      | some rep => exact ⟨rep, rfl⟩
    obtain ⟨hrepmem, hleast⟩ := BTreeSet.first?_eq_some hrep
    have hleader : ∀ v ∈ g.group, StrongLeader forward v rep := by
      intro v hv
      rw [strongLeader_congr ((hstrong v).mp hv)]
      refine ⟨((hstrong rep).mp hrepmem).symm, fun u hu => ?_⟩
      exact isLE_compare_iff.mp (hleast u ((hstrong u).mpr (Strong.symm hu)))
    have hlookup : ∀ v : V,
        (g.group.toList.foldl (fun labels v => labels.insert v rep) m.labels)[v]? =
          if v ∈ g.group then some rep else m.labels[v]? := by
      intro v
      rw [lookup_foldl_label]
      simp only [ExtTreeSet.mem_toList]
    have hold : ∀ v r : V, m.labels[v]? = some r → v ∉ g.group := fun v r hr hv =>
      ((hgroup v).mp hv).1 ((h.labels_iff v r).mp hr).1
    have hnewrep : rep ∉ values m.labels := by
      intro hmem
      obtain ⟨v, hv⟩ := mem_values.mp hmem
      obtain ⟨hvassigned, hvrep⟩ := (h.labels_iff v rep).mp hv
      exact ((hgroup rep).mp hrepmem).1 (h.assigned_of_connected hvrep.1.2 hvassigned)
    have hvalues : values (g.group.toList.foldl (fun labels v => labels.insert v rep) m.labels) =
        insert rep (values m.labels) := by
      ext r
      rw [Finset.mem_insert, mem_values, mem_values]
      constructor
      · rintro ⟨v, hv⟩
        rw [hlookup] at hv
        split_ifs at hv
        · exact .inl (Option.some.inj hv).symm
        · exact .inr ⟨v, hv⟩
      · rintro (rfl | ⟨v, hv⟩)
        · exact ⟨r, by rw [hlookup, if_pos hrepmem]⟩
        · exact ⟨v, by rw [hlookup, if_neg (hold v r hv), hv]⟩
    rw [hok]
    refine ⟨_, rfl, ⟨fun v hv => ?_, fun b hb a hab => ?_, fun v r => ?_, fun v hv => ?_, ?_⟩,
      fun v hv hnot => ?_⟩
    · rcases (hgassigned v).mp hv with hv | hv
      · exact h.assigned_live v hv
      · exact hglive v hv
    · rw [hgassigned]
      by_cases ha : a ∈ m.assigned
      · exact .inl ha
      · rcases (hgassigned b).mp hb with hb | hb
        · exact .inl (h.closed b hb a hab)
        · exact .inr ((hgroup a).mpr ⟨ha, .head hab ((hgroup b).mp hb).2⟩)
    · dsimp only
      rw [hrep, Option.getD_some, hlookup, hgassigned]
      split_ifs with hv
      · rw [Option.some.injEq]
        refine ⟨fun hr => hr ▸ ⟨.inr hv, hleader v hv⟩, fun hr => (hleader v hv).unique hr.2⟩
      · rw [h.labels_iff, or_iff_left hv]
    · dsimp only
      rw [hrep, Option.getD_some, hlookup]
      split_ifs with hgr
      · exact ⟨rep, rfl⟩
      · exact h.labelled v (((hgassigned v).mp hv).resolve_right hgr)
    · dsimp only
      rw [hrep, Option.getD_some, hvalues, Finset.card_insert_of_notMem hnewrep, h.count_eq]
    · have hnot' : v ∉ m.assigned := fun hvm => hnot ((hgassigned v).mpr (.inl hvm))
      rcases List.mem_cons.mp (hleft v hv hnot') with rfl | hv
      · exact absurd ((hgassigned v).mpr (.inr ((hstrong v).mpr ⟨.refl, .refl⟩))) hnot
      · exact hv

/-- The second pass assigns all vertices. -/
theorem Labelling.Inv.assign_all (missing : ε) {l : List V} (h : m.Inv live forward)
    (hl : ∀ v ∈ l, v ∈ live) (hordered : Ordered forward l)
    (hleft : ∀ v ∈ live, v ∉ m.assigned → v ∈ l) :
    ∃ m', l.foldlM (Labelling.assign missing live backward) m = .ok m' ∧ m'.Inv live forward ∧
      ∀ v, v ∈ m'.assigned ↔ v ∈ live := by
  induction l generalizing m with
  | nil =>
    refine ⟨m, rfl, h, fun v => ⟨h.assigned_live v, fun hv => ?_⟩⟩
    by_contra hnot
    exact not_mem_nil (hleft v hv hnot)
  | cons root earlier ih =>
    obtain ⟨m₁, hok, hinv, hrest⟩ := h.assign hback hlive missing (hl root mem_cons_self)
      hordered hleft
    rw [foldlM_cons, hok]
    exact ih hinv (fun v hv => hl v (mem_cons_of_mem _ hv)) hordered.2 hrest

/-- The two passes label each live vertex with the least vertex of its component, and count the
components. -/
theorem strongComponents_spec (missing : ε) :
    ∃ m, strongComponents missing live forward backward = .ok m ∧
      (∀ v r : V, m.labels[v]? = some r ↔ v ∈ live ∧ StrongLeader forward v r) ∧
      (∀ v ∈ live, ∃ r, m.labels[v]? = some r) ∧ m.count = (values m.labels).card := by
  obtain ⟨visit, hvisit, hfinished, hordered⟩ := forwardPass_spec
    (fun v hv w hw => (hlive v w hw).mp hv) missing
  have hinit : Labelling.Inv live forward { assigned := ∅, labels := ∅, count := 0 } := by
    refine ⟨fun v hv => absurd hv not_mem_empty, fun b hb => absurd hb not_mem_empty, fun v r => ?_,
      fun v hv => absurd hv not_mem_empty, rfl⟩
    simp [not_mem_empty]
  obtain ⟨m, hok, hinv, hassigned⟩ := hinit.assign_all hback hlive missing
    (fun v hv => (hfinished v).mp hv) hordered (fun v hv _ => (hfinished v).mpr hv)
  refine ⟨m, ?_, fun v r => ?_, fun v hv => hinv.labelled v ((hassigned v).mpr hv), hinv.count_eq⟩
  · unfold strongComponents
    rw [hvisit]
    exact hok
  · rw [hinv.labels_iff, hassigned]

end Assign

end FrankenGraph
