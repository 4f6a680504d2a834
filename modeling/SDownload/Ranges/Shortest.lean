import SDownload.Lib.Layers
import SDownload.Ranges.Coverage
import Mathlib.Data.List.Perm.Subperm
import Mathlib.Order.Bounds.Basic

/-!
# SDownload.Ranges.Shortest

`calculate_optimal_coverage` returns as few fragments as any cover of the file
needs chunks.

The search jumps from one start to another, over the best chunk of each start.
`Jump` is that graph, its nodes being positions and `none` the end of a file of
unknown size. Two arguments meet:

* the queue stands in layers (`Lib.Layers`), so what the search returns is a
  shortest path of the graph (`layered_round`);
* any chunks that cover the bytes before a position lead there in as many jumps
  (`within_of_covered`). The chunk that has the last of these bytes can be
  replaced by the best chunk of its start, and the others cover what is before
  that start.
-/

namespace SDownload

open Layers

/-! ### The graph -/

/-- The chunk kept for a start leads to every cut it reaches, and an open one to the end of a file
of unknown size. -/
def Jump (fileSize : Option Int) (best : Dict Int ChunkRange) (cuts : List Int) :
    Option Int → Option Int → Prop
  | some q, some p => p ∈ cuts ∧ EnteredFrom best q p
  | some q, none => fileSize = none ∧ ∃ c, best.get? q = some c ∧ c.endByte = none
  | none, _ => False

/-- The queue as nodes with their distances. -/
def SearchState.nodes (st : SearchState) : List (Option Int × Nat) :=
  st.queue.map fun e => (some e.1, e.2.length)

/-- The positions seen, as nodes. -/
def SearchState.seen (st : SearchState) : Set (Option Int) :=
  {n | ∃ p ∈ st.visited, n = some p}

@[simp] theorem SearchState.some_mem_seen {st : SearchState} {p : Int} :
    some p ∈ st.seen ↔ p ∈ st.visited := by
  simp [SearchState.seen]

/-! ### One round -/

section Search

variable {fileSize : Option Int} {best : Dict Int ChunkRange} {cuts : List Int}

/-- What the loop over the cuts appends to the queue. -/
theorem tryCuts_appends {chunk : ChunkRange} {pos : Int} {path : List ChunkFragment} :
    ∀ {cs : List Int} {st st' : SearchState}, tryCuts fileSize chunk pos path cs st = .inr st' →
      ∃ added, st'.queue = st.queue ++ added ∧
        (∀ e ∈ added, e.1 ∈ cs ∧ e.1 ∉ st.visited ∧ e.2.length = path.length + 1) ∧
        ∀ x ∈ st'.visited, x ∈ st.visited ∨ ∃ e ∈ added, e.1 = x := by
  intro cs
  induction cs with
  | nil =>
      intro st st' h
      obtain rfl : st = st' := Sum.inr.inj h
      exact ⟨[], by simp, by simp, fun x hx => Or.inl hx⟩
  | cons c cs ih =>
      intro st st' h
      simp only [tryCuts] at h
      split at h
      · obtain ⟨added, hqueue, hadded, hvisited⟩ := ih h
        refine ⟨added, hqueue, fun e he => ?_, hvisited⟩
        obtain ⟨hmem, hrest⟩ := hadded e he
        exact ⟨List.mem_cons_of_mem _ hmem, hrest⟩
      · rename_i hseen
        split at h
        · cases h
        · obtain ⟨added, hqueue, hadded, hvisited⟩ := ih h
          refine ⟨(c, path ++ [⟨chunk, readLimit chunk pos c⟩]) :: added, ?_, fun e he => ?_,
            fun x hx => ?_⟩
          · rw [hqueue, List.append_assoc]
            rfl
          · rcases List.mem_cons.mp he with rfl | he
            · exact ⟨List.mem_cons_self, hseen, by simp⟩
            · obtain ⟨hmem, hnew, hlen⟩ := hadded e he
              exact ⟨List.mem_cons_of_mem _ hmem,
                fun hin => hnew (List.mem_cons_of_mem _ hin), hlen⟩
          · rcases hvisited x hx with hold | ⟨e, he, rfl⟩
            · rcases List.mem_cons.mp hold with rfl | hold
              · exact Or.inr ⟨_, List.mem_cons_self, rfl⟩
              · exact Or.inl hold
            · exact Or.inr ⟨e, List.mem_cons_of_mem _ he, rfl⟩

/-- The cuts a round tries are the nodes behind the edges of its position. -/
theorem jump_some_iff {chunk : ChunkRange} {pos x : Int} (hchunk : best.get? pos = some chunk) :
    Jump fileSize best cuts (some pos) (some x) ↔
      x ∈ (cuts.filter fun cp => decide (pos < cp) && reaches chunk cp).reverse := by
  rw [mem_cuts_ahead]
  simp only [Jump, EnteredFrom, hchunk, Option.some.injEq, exists_eq_left']

section Round

variable {pos : Int} {path : List ChunkFragment} {queue : List (Int × List ChunkFragment)}
  {visited : List Int}

/-- A position no chunk starts at leaves the queue. -/
theorem layered_deadEnd (hchunk : best.get? pos = none)
    (h : Layered (Jump fileSize best cuts) (some 0) path.length
      (SearchState.nodes ⟨(pos, path) :: queue, visited⟩)
      (SearchState.seen ⟨(pos, path) :: queue, visited⟩)) :
    Layered (Jump fileSize best cuts) (some 0) path.length
      (SearchState.nodes ⟨queue, visited⟩) (SearchState.seen ⟨queue, visited⟩) := by
  have hdead : ∀ x, ¬ Jump fileSize best cuts (some pos) x := by
    intro x hjump
    cases x with
    | none =>
        obtain ⟨-, c, hc, -⟩ := hjump
        simp [hchunk] at hc
    | some x =>
        obtain ⟨-, c, hc, -⟩ := hjump
        simp [hchunk] at hc
  have hnone : ∀ e ∈ ([] : List (Option Int × Nat)), Jump fileSize best cuts (some pos) e.1 ∧
      e.1 ∉ SearchState.seen ⟨queue, visited⟩ ∧ e.2 = path.length + 1 := by simp
  have hpop := h.pop hnone (fun x hx => hx) (fun x hx => absurd hx (hdead x))
    (fun x hx => Or.inl hx)
  rwa [List.append_nil] at hpop

/-- The loop over the cuts replaces a position by the nodes behind its edges. -/
theorem layered_tried {chunk : ChunkRange} {st' : SearchState}
    (hchunk : best.get? pos = some chunk) (hopen : ¬ (fileSize = none ∧ chunk.endByte = none))
    (h : Layered (Jump fileSize best cuts) (some 0) path.length
      (SearchState.nodes ⟨(pos, path) :: queue, visited⟩)
      (SearchState.seen ⟨(pos, path) :: queue, visited⟩))
    (hst : tryCuts fileSize chunk pos path
      (cuts.filter fun cp => decide (pos < cp) && reaches chunk cp).reverse ⟨queue, visited⟩ =
        .inr st') :
    Layered (Jump fileSize best cuts) (some 0) path.length st'.nodes st'.seen := by
  obtain ⟨added, hqueue, hadded, hvisited⟩ := tryCuts_appends hst
  have t := tryCuts_inr hst
  have hnodes : st'.nodes = SearchState.nodes ⟨queue, visited⟩ ++
      added.map fun e => (some e.1, e.2.length) := by
    rw [SearchState.nodes, hqueue, List.map_append]
    rfl
  rw [hnodes]
  refine h.pop (fun e he => ?_) (fun x hx => ?_) (fun x hjump => ?_) (fun x hx => ?_)
  · obtain ⟨entry, hentry, rfl⟩ := List.mem_map.mp he
    obtain ⟨hin, hnew, hlen⟩ := hadded entry hentry
    exact ⟨(jump_some_iff hchunk).mpr hin, fun hseen => hnew (SearchState.some_mem_seen.mp hseen),
      hlen⟩
  · obtain ⟨p, hp, rfl⟩ := hx
    exact SearchState.some_mem_seen.mpr ((t.visited p).mpr (Or.inl hp))
  · cases x with
    | none =>
        obtain ⟨hnone, c, hc, hend⟩ := hjump
        obtain rfl : chunk = c := Option.some.inj (hchunk.symm.trans hc)
        exact absurd ⟨hnone, hend⟩ hopen
    | some x =>
        exact SearchState.some_mem_seen.mpr
          ((t.visited x).mpr (Or.inr ((jump_some_iff hchunk).mp hjump)))
  · obtain ⟨p, hp, rfl⟩ := hx
    rcases hvisited p hp with hold | ⟨e, he, rfl⟩
    · exact Or.inl (SearchState.some_mem_seen.mpr hold)
    · exact Or.inr ⟨_, List.mem_map_of_mem he, rfl⟩

/-- One round: what it returns is a shortest path to the goal, and otherwise the queue still
stands in layers. -/
theorem layered_round
    (hgoal : fileSize ∉ SearchState.seen ⟨(pos, path) :: queue, visited⟩) (hpos : pos ∈ visited)
    (h : ∃ m, Layered (Jump fileSize best cuts) (some 0) m
      (SearchState.nodes ⟨(pos, path) :: queue, visited⟩)
      (SearchState.seen ⟨(pos, path) :: queue, visited⟩)) :
    (∀ found, bfsStep fileSize best cuts pos path ⟨queue, visited⟩ = .inl found →
      ∀ d, Within (Jump fileSize best cuts) (some 0) d fileSize → found.length ≤ d) ∧
    ∀ st', bfsStep fileSize best cuts pos path ⟨queue, visited⟩ = .inr st' →
      ∃ m, Layered (Jump fileSize best cuts) (some 0) m st'.nodes st'.seen := by
  obtain ⟨m, h⟩ := h
  have hhead := h.at_head
  have hnot : fileSize ≠ some pos := by
    rintro rfl
    exact hgoal (SearchState.some_mem_seen.mpr hpos)
  simp only [bfsStep, if_neg hnot]
  cases hchunk : best.get? pos with
  | none =>
      refine ⟨fun found hf => by simp at hf, fun st' hst => ?_⟩
      obtain rfl : _ = st' := Sum.inr.inj hst
      exact ⟨path.length, layered_deadEnd hchunk hhead⟩
  | some chunk =>
      simp only
      split
      · -- no file size, and a chunk that is read until EOF
        rename_i hopen
        refine ⟨fun found hf d hd => ?_, fun st' hst => by simp at hst⟩
        obtain rfl : _ = found := Sum.inl.inj hf
        have hjump : Jump fileSize best cuts (some pos) fileSize := by
          rw [hopen.1]
          exact ⟨rfl, chunk, hchunk, hopen.2⟩
        rw [List.length_append]
        exact (hhead.fresh hjump hgoal).2 d hd
      · rename_i hopen
        refine ⟨fun found hf d hd => ?_, fun st' hst =>
          ⟨path.length, layered_tried hchunk hopen hhead hst⟩⟩
        obtain ⟨goal, hin, hg, rfl⟩ := tryCuts_inl hf
        have hjump : Jump fileSize best cuts (some pos) (some goal) :=
          (jump_some_iff hchunk).mpr hin
        rw [← hg] at hjump
        rw [List.length_append]
        exact (hhead.fresh hjump hgoal).2 d hd

end Round

/-! ### Chunks that cover lead as far -/

/-- **Exchange.** Chunks that have every byte before a position lead to that position, with a jump
for each of them at most. -/
theorem within_of_covered {chunks : List ChunkRange} (hbest : IsBest chunks best)
    (hstarts : ∀ c ∈ chunks, c.start ∈ cuts) (hnonneg : ∀ c ∈ chunks, 0 ≤ c.start) :
    ∀ {n : Nat} {picked : List ChunkRange} {p : Int}, picked.length = n →
      (∀ c ∈ picked, c ∈ chunks) → 0 ≤ p → (0 < p → p ∈ cuts) →
      (∀ x, 0 ≤ x → x < p → ∃ c ∈ picked, c.Has x) →
      Within (Jump fileSize best cuts) (some 0) n (some p) := by
  intro n
  induction n with
  | zero =>
      intro picked p hlen _ hp _ hcover
      obtain rfl := List.length_eq_zero_iff.mp hlen
      obtain rfl : p = 0 := by
        by_contra hne
        obtain ⟨c, hc, -⟩ := hcover 0 le_rfl (by omega)
        cases hc
      exact .source
  | succ n ih =>
      intro picked p hlen hsub hp hcut hcover
      rcases hp.eq_or_lt with rfl | hpos
      · exact .source
      -- `c` has the last byte before `p`; the others have what is before `c`
      obtain ⟨c, hc, hhas⟩ := hcover (p - 1) (by omega) (by omega)
      have hstart : c.start ≤ p - 1 := hhas.1
      have hlen' : (picked.erase c).length = n := by
        rw [List.length_erase_of_mem hc, hlen, Nat.add_sub_cancel]
      have hbefore : Within (Jump fileSize best cuts) (some 0) n (some c.start) := by
        refine ih hlen' (fun c' hc' => hsub c' (List.mem_of_mem_erase hc'))
          (hnonneg c (hsub c hc)) (fun _ => hstarts c (hsub c hc)) fun x hx0 hx => ?_
        obtain ⟨c', hc', hhas'⟩ := hcover x hx0 (by omega)
        have hne : c' ≠ c := by
          rintro rfl
          exact absurd hhas'.1 (not_le.mpr hx)
        exact ⟨c', (List.mem_erase_of_ne hne).mpr hc', hhas'⟩
      obtain ⟨kept, hkept, hle⟩ := hbest.furthest c (hsub c hc)
      have hreach : reaches c p = true := by
        obtain ⟨s, e⟩ := c
        cases e with
        | none => rfl
        | some e =>
            have := hhas.2 e rfl
            simp only [reaches, decide_eq_true_eq]
            omega
      exact hbefore.step
        ⟨hcut hpos, kept, hkept, by omega, reaches_of_not_reachGt hle hreach⟩

/-- There is a byte past the end of every bounded chunk. -/
theorem exists_byte_past (chunks : List ChunkRange) :
    ∃ x : Int, 0 ≤ x ∧ ∀ c ∈ chunks, ∀ e ∈ c.endByte, e < x := by
  induction chunks with
  | nil => exact ⟨0, le_rfl, by simp⟩
  | cons c rest ih =>
      obtain ⟨x, hx, hpast⟩ := ih
      have habs := abs_nonneg (c.endByte.getD 0)
      refine ⟨x + |c.endByte.getD 0| + 1, by omega, fun c' hc' e he => ?_⟩
      rcases List.mem_cons.mp hc' with rfl | hc'
      · have := le_abs_self e
        rw [he, Option.getD_some]
        omega
      · have := hpast c' hc' e he
        omega

/-- Chunks that cover the file lead to its end, with a jump for each of them at most. -/
theorem within_goal_of_covers {chunks picked : List ChunkRange} (hbest : IsBest chunks best)
    (hstarts : ∀ c ∈ chunks, c.start ∈ cuts) (hnonneg : ∀ c ∈ chunks, 0 ≤ c.start)
    (hsize : ∀ g, fileSize = some g → 1 ≤ g) (hgoal : ∀ g, fileSize = some g → g ∈ cuts)
    (hsub : ∀ c ∈ picked, c ∈ chunks) (hcover : Covers picked fileSize) :
    Within (Jump fileSize best cuts) (some 0) picked.length fileSize := by
  cases fileSize with
  | some g =>
      refine within_of_covered hbest hstarts hnonneg rfl hsub (by have := hsize g rfl; omega)
        (fun _ => hgoal g rfl) fun x hx0 hx => hcover x hx0 fun g' hg' => ?_
      obtain rfl := Option.some.inj hg'
      exact hx
  | none =>
      -- only an open chunk has a byte past the end of every bounded one
      obtain ⟨x, hx0, hpast⟩ := exists_byte_past picked
      obtain ⟨c, hc, hhas⟩ := hcover x hx0 (by simp)
      have hopen : c.endByte = none := by
        cases hend : c.endByte with
        | none => rfl
        | some e => exact absurd (hhas.2 e hend) (not_le.mpr (hpast c hc e hend))
      have hlen : picked.length = (picked.erase c).length + 1 := by
        rw [List.length_erase_of_mem hc]
        have := List.length_pos_of_mem hc
        omega
      have hbefore : Within (Jump none best cuts) (some 0) (picked.erase c).length
          (some c.start) := by
        refine within_of_covered hbest hstarts hnonneg rfl
          (fun c' hc' => hsub c' (List.mem_of_mem_erase hc')) (hnonneg c (hsub c hc))
          (fun _ => hstarts c (hsub c hc)) fun y hy0 hy => ?_
        obtain ⟨c', hc', hhas'⟩ := hcover y hy0 (by simp)
        have hne : c' ≠ c := by
          rintro rfl
          exact absurd hhas'.1 (not_le.mpr hy)
        exact ⟨c', (List.mem_erase_of_ne hne).mpr hc', hhas'⟩
      obtain ⟨kept, hkept, hle⟩ := hbest.furthest c (hsub c hc)
      have hkeptOpen : kept.endByte = none := by
        cases hend : kept.endByte with
        | none => rfl
        | some e => simp [reachGt, hopen, hend] at hle
      rw [hlen]
      exact hbefore.step ⟨rfl, kept, hkept, hkeptOpen⟩

end Search

/-! ### The fewest fragments -/

/-- The fragments of a tiling start one after the other. -/
theorem FragTiles.starts {chunks : List ChunkRange} {fileSize goal : Option Int}
    (hchunks : ∀ c ∈ chunks, ∀ e ∈ c.endByte, c.start ≤ e) :
    ∀ {path : List ChunkFragment} {p : Int}, FragTiles chunks fileSize (some p) path goal →
      (∀ g, fileSize = some g → ∀ f ∈ path, f.range.start < g) →
      (∀ f ∈ path, p ≤ f.range.start) ∧
        path.Pairwise fun f f' => f.range.start < f'.range.start := by
  intro path
  induction path with
  | nil => exact fun _ _ => ⟨by simp, List.Pairwise.nil⟩
  | cons f rest ih =>
      intro p h hbelow
      obtain ⟨hmem, hstart, hlimit, hrest⟩ := h
      have hp : f.range.start = p := Option.some.inj hstart
      have hlater : (∀ f' ∈ rest, p < f'.range.start) ∧
          rest.Pairwise fun f f' => f.range.start < f'.range.start := by
        cases hnext : f.next fileSize with
        | none =>
            rw [hnext] at hrest
            cases rest with
            | nil => exact ⟨by simp, List.Pairwise.nil⟩
            | cons f' rest => cases hrest.2.1
        | some n =>
            rw [hnext] at hrest
            have hlt : p < n := by
              rw [← hp]
              unfold ChunkFragment.next at hnext
              cases hk : f.readLimitQtBytes with
              | some k =>
                  have := (hlimit k hk).1
                  simp only [hk, Option.some.injEq] at hnext
                  omega
              | none =>
                  cases he : f.range.endByte with
                  | some e =>
                      have := hchunks _ hmem e he
                      simp only [hk, he, Option.some.injEq] at hnext
                      omega
                  | none =>
                      simp only [hk, he] at hnext
                      exact hbelow n hnext f List.mem_cons_self
            obtain ⟨h1, h2⟩ := ih hrest fun g hg f' hf' =>
              hbelow g hg f' (List.mem_cons_of_mem _ hf')
            exact ⟨fun f' hf' => hlt.trans_le (h1 f' hf'), h2⟩
      refine ⟨fun f' hf' => ?_, List.pairwise_cons.mpr ⟨fun f' hf' => ?_, hlater.2⟩⟩
      · rcases List.mem_cons.mp hf' with rfl | hf'
        · exact hp.ge
        · exact (hlater.1 f' hf').le
      · rw [hp]
        exact hlater.1 f' hf'

/-- **Coverage is minimal.** What `calculate_optimal_coverage` returns has as many fragments as the
smallest collection of the chunks that covers the file has chunks. -/
theorem calculateOptimalCoverage_isLeast (chunks : List ChunkRange) (fileSize : Option Int)
    (fragments : List ChunkFragment) (hsize : ∀ g, fileSize = some g → 1 ≤ g)
    (hchunks : ∀ c ∈ chunks, 0 ≤ c.start ∧ ∀ e ∈ c.endByte, c.start ≤ e)
    (h : calculateOptimalCoverage chunks fileSize = .ok fragments) :
    IsLeast {n | ∃ picked : List ChunkRange, picked.Subperm chunks ∧ Covers picked fileSize ∧
      picked.length = n} fragments.length := by
  have hbest := isBest_bestChunks chunks
  have hgoal := @goal_mem_coverageCuts chunks fileSize
  have htiles := calculateOptimalCoverage_sound (fun g hg => hsize g hg) h
  refine ⟨⟨fragments.map ChunkFragment.range, ?_, ?_, List.length_map _⟩, ?_⟩
  · -- the fragments start one after the other, so no chunk is used twice
    have hsorted := (htiles.starts (fun c hc => (hchunks c hc).2) fun g hg f hf =>
      calculateOptimalCoverage_starts (fun g hg => hsize g hg) h f hf g hg).2
    have hnodup : (fragments.map ChunkFragment.range).Nodup := by
      refine List.Pairwise.map _ (fun f f' hlt heq => ?_) hsorted
      rw [heq] at hlt
      exact lt_irrefl _ hlt
    refine hnodup.subperm fun c hc => ?_
    obtain ⟨f, hf, rfl⟩ := List.mem_map.mp hc
    exact (htiles.of_mem hf).1
  · intro x hx0 hx
    obtain ⟨f, hf, hhas⟩ := htiles.covers hx hx0
    exact ⟨f.range, List.mem_map_of_mem hf, hhas⟩
  · -- chunks that cover give a walk of as many jumps to the goal, and the search finds the shortest
    rintro n ⟨picked, hpicked, hcover, rfl⟩
    have hstarts : ∀ c ∈ chunks, c.start ∈ coverageCuts chunks fileSize := fun c hc =>
      mem_cutPoints_of_start _ ((List.mem_insertionSort _).mpr
        (Dict.mem_keys_iff.mpr ((hbest.furthest c hc).imp fun _ hkept => hkept.1)))
    have hwithin := within_goal_of_covers hbest hstarts (fun c hc => (hchunks c hc).1) hsize hgoal
      (fun c hc => hpicked.subset hc) hcover
    refine @calculateOptimalCoverage_rule chunks fileSize fragments
      (fun st => SearchInv chunks fileSize (bestChunks chunks) (coverageCuts chunks fileSize) st ∧
        ∃ m, Layered (Jump fileSize (bestChunks chunks) (coverageCuts chunks fileSize)) (some 0) m
          st.nodes st.seen)
      (fun path => ∀ d, Within (Jump fileSize (bestChunks chunks) (coverageCuts chunks fileSize))
        (some 0) d fileSize → path.length ≤ d)
      ⟨searchInv_start (fun g hg => hsize g hg) _ _, 0, ?_⟩ ?_ h picked.length hwithin
    · have hseen : SearchState.seen ⟨[(0, [])], [0]⟩ = {some 0} := by
        ext n
        simp [SearchState.seen]
      rw [hseen]
      exact layered_start _ _
    · rintro pos path queue visited ⟨hinv, hlayered⟩
      have hunseen : fileSize ∉ SearchState.seen ⟨(pos, path) :: queue, visited⟩ := by
        rintro ⟨g, hg, hfs⟩
        exact lt_irrefl g (hinv.below g hg g hfs)
      have hkept := hinv.round hbest hgoal
      have hround := layered_round hunseen (hinv.tiles pos path List.mem_cons_self).1 hlayered
      exact ⟨hround.1, fun st' hst => ⟨hkept.2 st' hst, hround.2 st' hst⟩⟩

/-- Five chunks in steps of one byte, of which two are enough. -/
theorem calculateOptimalCoverage_isLeast_staircase :
    IsLeast {n | ∃ picked : List ChunkRange,
      picked.Subperm [⟨0, some 2⟩, ⟨1, some 3⟩, ⟨2, some 4⟩, ⟨3, some 5⟩, ⟨1, some 1⟩] ∧
        Covers picked (some 6) ∧ picked.length = n} 2 :=
  calculateOptimalCoverage_isLeast
    [⟨0, some 2⟩, ⟨1, some 3⟩, ⟨2, some 4⟩, ⟨3, some 5⟩, ⟨1, some 1⟩] (some 6)
    [⟨⟨0, some 2⟩, none⟩, ⟨⟨3, some 5⟩, none⟩] (by simp) (by decide) (by decide)

end SDownload
