import SDownload.Ranges.Operations
import Mathlib.Data.Finset.Max
import Mathlib.Tactic.Ring

/-!
# SDownload.Ranges.Coverage

`calculate_optimal_coverage` is sound and complete for chunks that start inside
the file.

* `calculateOptimalCoverage_sound`: the fragments it returns tile the file;
* `calculateOptimalCoverage_complete`: it returns some whenever the chunks
  leave no byte of the file out;
* `calculateOptimalCoverage_returns_iff`: both, with what it does elsewhere.

## Proof shape

The search is a loop over `SearchState`, and `bfs_rule` turns one fact about a
round (`SearchInv`, preserved by `bfsStep`) into a fact about its result. The
invariant says what a queued path is (a tiling up to its position), that every
position seen was entered from one seen before it, and that a position no longer
queued has had all its cuts entered.

When the queue runs empty, the last two clauses decide completeness. The starts
below a position that was seen have all been seen (`Exhausted.starts_below`), so the
furthest byte reached from the seen positions is a byte no chunk has.
-/

namespace SDownload

/-! ### The best chunk for each start -/

theorem reaches_of_not_reachGt {a b : ChunkRange} {x : Int} (h : reachGt a b = false)
    (ha : reaches a x = true) : reaches b x = true := by
  obtain ⟨_, ea⟩ := a
  obtain ⟨_, eb⟩ := b
  cases ea <;> cases eb <;> simp_all [reachGt, reaches]
  omega

theorem not_reachGt_of_reachGt {a b c : ChunkRange} (hab : reachGt a b = true)
    (hcb : reachGt c b = false) : reachGt c a = false := by
  obtain ⟨_, ea⟩ := a
  obtain ⟨_, eb⟩ := b
  obtain ⟨_, ec⟩ := c
  cases ea <;> cases eb <;> cases ec <;> simp_all [reachGt]
  omega

@[simp] theorem reachGt_self (a : ChunkRange) : reachGt a a = false := by
  obtain ⟨_, e⟩ := a
  cases e <;> simp [reachGt]

/-- `best` keeps, for each start among `chunks`, one of them that reaches the furthest. -/
structure IsBest (chunks : List ChunkRange) (best : Dict Int ChunkRange) : Prop where
  mem : ∀ p c, best.get? p = some c → c ∈ chunks ∧ c.start = p
  furthest : ∀ c ∈ chunks, ∃ kept, best.get? c.start = some kept ∧ reachGt c kept = false

theorem IsBest.keepBest {chunks : List ChunkRange} {best : Dict Int ChunkRange}
    (h : IsBest chunks best) (c : ChunkRange) :
    IsBest (chunks ++ [c]) (keepBest best c) := by
  have hset : (∀ kept, best.get? c.start = some kept → reachGt c kept = true) →
      IsBest (chunks ++ [c]) (best.set c.start c) := by
    intro hgt
    refine ⟨fun p c' hc' => ?_, fun c' hc' => ?_⟩
    · rw [Dict.get?_set] at hc'
      split at hc'
      · obtain rfl : c = c' := by simpa using hc'
        exact ⟨by simp, by simp [*]⟩
      · obtain ⟨hmem, hstart⟩ := h.mem p c' hc'
        exact ⟨List.mem_append_left _ hmem, hstart⟩
    · rw [Dict.get?_set]
      rcases List.mem_append.mp hc' with hc' | hc'
      · obtain ⟨kept, hkept, hle⟩ := h.furthest c' hc'
        split
        · rename_i hstart
          rw [hstart] at hkept
          exact ⟨c, rfl, not_reachGt_of_reachGt (hgt kept hkept) hle⟩
        · exact ⟨kept, hkept, hle⟩
      · obtain rfl : c' = c := by simpa using hc'
        exact ⟨c', by simp, reachGt_self c'⟩
  unfold SDownload.keepBest
  cases hget : best.get? c.start with
  | none => exact hset (by simp [hget])
  | some kept =>
      by_cases hgt : reachGt c kept = true
      · simp only [hgt, if_true]
        exact hset (by simp [hget, hgt])
      · simp only [hgt]
        refine ⟨fun p c' hc' => ?_, fun c' hc' => ?_⟩
        · obtain ⟨hmem, hstart⟩ := h.mem p c' hc'
          exact ⟨List.mem_append_left _ hmem, hstart⟩
        · rcases List.mem_append.mp hc' with hc' | hc'
          · exact h.furthest c' hc'
          · obtain rfl : c' = c := by simpa using hc'
            exact ⟨kept, hget, by simpa using hgt⟩

theorem isBest_bestChunks (chunks : List ChunkRange) : IsBest chunks (bestChunks chunks) := by
  have key : ∀ (rest done : List ChunkRange) (best : Dict Int ChunkRange), IsBest done best →
      IsBest (done ++ rest) (rest.foldl keepBest best) := by
    intro rest
    induction rest with
    | nil => intro done best h; simpa using h
    | cons c rest ih =>
        intro done best h
        simpa using ih (done ++ [c]) (keepBest best c) (h.keepBest c)
  have hempty : IsBest [] Dict.empty := ⟨fun p c h => by simp at h, fun c h => by simp at h⟩
  simpa [bestChunks] using key chunks [] Dict.empty hempty

/-! ### Fragments that tile the file -/

/-- The position after a fragment: after the bytes it is limited to, else after the end of its
chunk, else the end of the file (`none`: without bound). -/
def ChunkFragment.next (fileSize : Option Int) (f : ChunkFragment) : Option Int :=
  match f.readLimitQtBytes, f.range.endByte with
  | some k, _ => some (f.range.start + k)
  | none, some e => some (e + 1)
  | none, none => fileSize

/-- A read limit leaves out at least one byte of a bounded chunk, and not all of it. -/
def ChunkFragment.LimitOk (f : ChunkFragment) : Prop :=
  ∀ k ∈ f.readLimitQtBytes, 1 ≤ k ∧ ∃ e, f.range.endByte = some e ∧ k < e - f.range.start + 1

/-- The fragments, all of them parts of `chunks`, follow each other from `pos` to `goal`. -/
def FragTiles (chunks : List ChunkRange) (fileSize : Option Int) :
    Option Int → List ChunkFragment → Option Int → Prop
  | pos, [], goal => pos = goal
  | pos, f :: rest, goal =>
      f.range ∈ chunks ∧ some f.range.start = pos ∧ f.LimitOk ∧
        FragTiles chunks fileSize (f.next fileSize) rest goal

theorem FragTiles.concat {chunks : List ChunkRange} {fileSize : Option Int}
    {path : List ChunkFragment} {pos mid goal : Option Int} {f : ChunkFragment}
    (hpath : FragTiles chunks fileSize pos path mid) (hmem : f.range ∈ chunks)
    (hstart : some f.range.start = mid) (hlimit : f.LimitOk) (hnext : f.next fileSize = goal) :
    FragTiles chunks fileSize pos (path ++ [f]) goal := by
  induction path generalizing pos with
  | nil => obtain rfl : pos = mid := hpath; exact ⟨hmem, hstart, hlimit, hnext⟩
  | cons f' rest ih => exact ⟨hpath.1, hpath.2.1, hpath.2.2.1, ih hpath.2.2.2⟩

theorem FragTiles.of_mem {chunks : List ChunkRange} {fileSize : Option Int}
    {path : List ChunkFragment} {pos goal : Option Int}
    (h : FragTiles chunks fileSize pos path goal)
    {f : ChunkFragment} (hf : f ∈ path) : f.range ∈ chunks ∧ f.LimitOk := by
  induction path generalizing pos with
  | nil => cases hf
  | cons f' rest ih =>
      rcases List.mem_cons.mp hf with rfl | hf
      · exact ⟨h.1, h.2.2.1⟩
      · exact ih h.2.2.2 hf

/-- The fragment of a cut inside a bounded chunk, or at the end of the file. -/
theorem readLimit_spec {fileSize : Option Int} {chunk : ChunkRange} {nextPos : Int}
    (hlt : chunk.start < nextPos) (hreach : reaches chunk nextPos = true)
    (hopen : chunk.endByte = none → fileSize = some nextPos) :
    ChunkFragment.LimitOk ⟨chunk, readLimit chunk chunk.start nextPos⟩ ∧
      ChunkFragment.next fileSize ⟨chunk, readLimit chunk chunk.start nextPos⟩ = some nextPos := by
  obtain ⟨s, e⟩ := chunk
  cases e with
  | none => simp [ChunkFragment.LimitOk, ChunkFragment.next, readLimit, hopen]
  | some e =>
      simp only [reaches, decide_eq_true_eq] at hreach
      simp only at hlt
      have hsum : s + (nextPos - s) = nextPos := by ring
      by_cases hwhole : e + 1 ≤ nextPos
      · have hnext : e + 1 = nextPos := by omega
        simp [ChunkFragment.LimitOk, ChunkFragment.next, readLimit, hnext]
      · have hlimit : readLimit ⟨s, some e⟩ s nextPos = some (nextPos - s) := by
          simp only [readLimit, hsum, if_neg hwhole]
        rw [ChunkFragment.LimitOk, ChunkFragment.next, hlimit]
        refine ⟨fun k hk => ?_, congrArg some hsum⟩
        obtain rfl : nextPos - s = k := by simpa using hk
        have hlen : nextPos - s < e - s + 1 := by omega
        exact ⟨by omega, e, rfl, hlen⟩

/-! ### One position's cuts -/

section Search

variable {fileSize : Option Int} {best : Dict Int ChunkRange} {cuts : List Int}

/-- The early return: the goal is a cut not seen yet. -/
theorem tryCuts_inl {chunk : ChunkRange} {pos : Int} {path found : List ChunkFragment} :
    ∀ {cs : List Int} {st : SearchState}, tryCuts fileSize chunk pos path cs st = .inl found →
      ∃ goal ∈ cs, fileSize = some goal ∧
        found = path ++ [⟨chunk, readLimit chunk pos goal⟩] := by
  intro cs
  induction cs with
  | nil => intro st h; simp [tryCuts] at h
  | cons c cs ih =>
      intro st h
      simp only [tryCuts] at h
      split at h
      · obtain ⟨goal, hmem, hrest⟩ := ih h
        exact ⟨goal, List.mem_cons_of_mem _ hmem, hrest⟩
      · split at h
        · exact ⟨c, List.mem_cons_self, ‹_›, (Sum.inl.inj h).symm⟩
        · obtain ⟨goal, hmem, hrest⟩ := ih h
          exact ⟨goal, List.mem_cons_of_mem _ hmem, hrest⟩

/-- What the loop over the cuts leaves behind when it runs to its end. -/
structure CutsTried (fileSize : Option Int) (chunk : ChunkRange) (pos : Int)
    (path : List ChunkFragment) (cs : List Int) (st st' : SearchState) : Prop where
  goal : ∀ g, fileSize = some g → g ∈ cs → g ∈ st.visited
  visited : ∀ x, x ∈ st'.visited ↔ x ∈ st.visited ∨ x ∈ cs
  kept : ∀ entry ∈ st.queue, entry ∈ st'.queue
  queued : ∀ x ∈ cs, x ∈ st.visited ∨ ∃ p, (x, p) ∈ st'.queue
  new : ∀ entry ∈ st'.queue, entry ∈ st.queue ∨
    entry.1 ∈ cs ∧ entry.2 = path ++ [⟨chunk, readLimit chunk pos entry.1⟩]

theorem tryCuts_inr {chunk : ChunkRange} {pos : Int} {path : List ChunkFragment} :
    ∀ {cs : List Int} {st st' : SearchState}, tryCuts fileSize chunk pos path cs st = .inr st' →
      CutsTried fileSize chunk pos path cs st st' := by
  intro cs
  induction cs with
  | nil =>
      intro st st' h
      obtain rfl : st = st' := Sum.inr.inj h
      exact ⟨by simp, by simp, fun _ h => h, by simp, fun _ h => Or.inl h⟩
  | cons c cs ih =>
      intro st st' h
      simp only [tryCuts] at h
      split at h
      · -- a cut already seen adds nothing
        rename_i hseen
        have t := ih h
        refine ⟨?_, ?_, t.kept, ?_, ?_⟩
        · intro g hg hmem
          rcases List.mem_cons.mp hmem with rfl | hmem
          · exact hseen
          · exact t.goal g hg hmem
        · intro x
          rw [t.visited, List.mem_cons]
          constructor
          · rintro (hx | hx)
            · exact Or.inl hx
            · exact Or.inr (Or.inr hx)
          · rintro (hx | rfl | hx)
            · exact Or.inl hx
            · exact Or.inl hseen
            · exact Or.inr hx
        · intro x hx
          rcases List.mem_cons.mp hx with rfl | hx
          · exact Or.inl hseen
          · exact t.queued x hx
        · intro entry hentry
          rcases t.new entry hentry with hold | ⟨hmem, hpath⟩
          · exact Or.inl hold
          · exact Or.inr ⟨List.mem_cons_of_mem _ hmem, hpath⟩
      · rename_i hseen
        split at h
        · cases h
        · -- a new cut short of the goal is marked and queued
          rename_i hgoal
          have t := ih h
          refine ⟨?_, ?_, ?_, ?_, ?_⟩
          · intro g hg hmem
            rcases List.mem_cons.mp hmem with rfl | hmem
            · exact absurd hg hgoal
            · rcases List.mem_cons.mp (t.goal g hg hmem) with rfl | hin
              · exact absurd hg hgoal
              · exact hin
          · intro x
            rw [t.visited, List.mem_cons, List.mem_cons]
            tauto
          · exact fun entry hentry => t.kept entry (List.mem_append_left _ hentry)
          · intro x hx
            by_cases hxc : x = c
            · subst hxc
              exact Or.inr ⟨_, t.kept _ (List.mem_append_right _ List.mem_cons_self)⟩
            · have hx' : x ∈ cs := (List.mem_cons.mp hx).resolve_left hxc
              rcases t.queued x hx' with hin | hq
              · exact Or.inl ((List.mem_cons.mp hin).resolve_left hxc)
              · exact Or.inr hq
          · intro entry hentry
            rcases t.new entry hentry with hold | ⟨hmem, hpath⟩
            · rcases List.mem_append.mp hold with hold | hnew
              · exact Or.inl hold
              · obtain rfl : entry = _ := List.mem_singleton.mp hnew
                exact Or.inr ⟨List.mem_cons_self, rfl⟩
            · exact Or.inr ⟨List.mem_cons_of_mem _ hmem, hpath⟩

/-! ### The budget -/

/-- What bounds the remaining rounds: the queue and the cuts not seen yet. -/
def pendingWork (cuts : List Int) (st : SearchState) : Nat :=
  (cuts.filter (· ∉ st.visited)).length + st.queue.length

theorem tryCuts_pendingWork {chunk : ChunkRange} {pos : Int} {path : List ChunkFragment} :
    ∀ {cs : List Int} {st st' : SearchState}, (∀ c ∈ cs, c ∈ cuts) →
      tryCuts fileSize chunk pos path cs st = .inr st' →
      pendingWork cuts st' ≤ pendingWork cuts st := by
  intro cs
  induction cs with
  | nil =>
      intro st st' _ h
      obtain rfl : st = st' := Sum.inr.inj h
      exact le_rfl
  | cons c cs ih =>
      intro st st' hcs h
      have hcs' : ∀ c ∈ cs, c ∈ cuts := fun x hx => hcs x (List.mem_cons_of_mem _ hx)
      simp only [tryCuts] at h
      split at h
      · exact ih hcs' h
      · rename_i hseen
        split at h
        · cases h
        · refine (ih hcs' h).trans ?_
          -- `c` leaves the unseen cuts, which pays for its entry in the queue
          have hlt : (cuts.filter (· ∉ c :: st.visited)).length <
              (cuts.filter (· ∉ st.visited)).length := by
            have hsub : (cuts.filter (· ∉ c :: st.visited)) =
                (cuts.filter (· ∉ st.visited)).filter (· ≠ c) := by
              rw [List.filter_filter]
              refine List.filter_congr fun x _ => ?_
              simp [not_or]
            rw [hsub]
            refine List.length_filter_lt_length_iff_exists.mpr ⟨c, ?_, by simp⟩
            simpa using ⟨hcs c List.mem_cons_self, hseen⟩
          simp only [pendingWork, List.length_append, List.length_singleton]
          omega

theorem bfs_ne_none : ∀ (fuel : Nat) (st : SearchState), pendingWork cuts st ≤ fuel →
    bfs fileSize best cuts fuel st ≠ none := by
  intro fuel
  induction fuel with
  | zero =>
      rintro ⟨queue, visited⟩ h
      cases queue with
      | nil => simp [bfs]
      | cons e q => simp [pendingWork] at h
  | succ fuel ih =>
      rintro ⟨queue, visited⟩ h
      cases queue with
      | nil => simp [bfs]
      | cons e q =>
          obtain ⟨pos, path⟩ := e
          have hpop : pendingWork cuts ⟨q, visited⟩ ≤ fuel := by
            simp only [pendingWork, List.length_cons] at h ⊢
            omega
          simp only [bfs]
          cases hround : bfsStep fileSize best cuts pos path ⟨q, visited⟩ with
          | inl found => simp
          | inr st' =>
              refine ih st' ((?_ : pendingWork cuts st' ≤ _).trans hpop)
              unfold bfsStep at hround
              split at hround
              · cases hround
              · split at hround
                · obtain rfl : _ = st' := Sum.inr.inj hround
                  exact le_rfl
                · split at hround
                  · cases hround
                  · refine tryCuts_pendingWork (fun c hc => ?_) hround
                    exact List.mem_of_mem_filter (List.mem_reverse.mp hc)

/-- A fact every round preserves, and from which every `return` gets its result, decides what
the loop ends with. -/
theorem bfs_rule {Inv : SearchState → Prop} {Result : List ChunkFragment → Prop}
    (hstep : ∀ pos path queue visited, Inv ⟨(pos, path) :: queue, visited⟩ →
      (∀ found, bfsStep fileSize best cuts pos path ⟨queue, visited⟩ = .inl found →
        Result found) ∧
      ∀ st', bfsStep fileSize best cuts pos path ⟨queue, visited⟩ = .inr st' → Inv st') :
    ∀ (fuel : Nat) (st : SearchState), Inv st →
      (∀ path, bfs fileSize best cuts fuel st = some (some path) → Result path) ∧
      (bfs fileSize best cuts fuel st = some none → ∃ visited, Inv ⟨[], visited⟩) := by
  intro fuel
  induction fuel with
  | zero =>
      rintro ⟨queue, visited⟩ hinv
      cases queue with
      | nil => exact ⟨fun path h => by simp [bfs] at h, fun _ => ⟨visited, hinv⟩⟩
      | cons e q => exact ⟨fun path h => by simp [bfs] at h, fun h => by simp [bfs] at h⟩
  | succ fuel ih =>
      rintro ⟨queue, visited⟩ hinv
      cases queue with
      | nil => exact ⟨fun path h => by simp [bfs] at h, fun _ => ⟨visited, hinv⟩⟩
      | cons e q =>
          obtain ⟨pos, path⟩ := e
          obtain ⟨hret, hgo⟩ := hstep pos path q visited hinv
          simp only [bfs]
          cases hround : bfsStep fileSize best cuts pos path ⟨q, visited⟩ with
          | inl found =>
              refine ⟨fun path' h => ?_, fun h => by simp at h⟩
              obtain rfl : found = path' := by simpa using h
              exact hret found hround
          | inr st' => exact ih st' (hgo st' hround)

/-! ### The search invariant -/

/-- Position `p` has had all its cuts entered. -/
def Closed (fileSize : Option Int) (best : Dict Int ChunkRange) (cuts visited : List Int)
    (p : Int) : Prop :=
  ∀ c, best.get? p = some c → (fileSize = none → c.endByte ≠ none) ∧
    ∀ cut ∈ cuts, p < cut → reaches c cut = true → cut ∈ visited

/-- Position `p` was entered from the position `q`. -/
def EnteredFrom (best : Dict Int ChunkRange) (q p : Int) : Prop :=
  ∃ c, best.get? q = some c ∧ q < p ∧ reaches c p = true

/-- The invariant of the search. -/
structure SearchInv (chunks : List ChunkRange) (fileSize : Option Int)
    (best : Dict Int ChunkRange) (cuts : List Int) (st : SearchState) : Prop where
  tiles : ∀ p path, (p, path) ∈ st.queue →
    p ∈ st.visited ∧ FragTiles chunks fileSize (some 0) path (some p)
  zero : (0 : Int) ∈ st.visited
  below : ∀ p ∈ st.visited, ∀ g, fileSize = some g → p < g
  entered : ∀ p ∈ st.visited, p = 0 ∨ p ∈ cuts ∧ ∃ q ∈ st.visited, EnteredFrom best q p
  closed : ∀ p ∈ st.visited, (∃ path, (p, path) ∈ st.queue) ∨
    Closed fileSize best cuts st.visited p

theorem Closed.mono {visited visited' : List Int} {p : Int} (hsub : ∀ x ∈ visited, x ∈ visited')
    (h : Closed fileSize best cuts visited p) : Closed fileSize best cuts visited' p :=
  fun c hc => ⟨(h c hc).1, fun cut hcuts hlt hreach => hsub cut ((h c hc).2 cut hcuts hlt hreach)⟩

/-- The cuts that a round tries. -/
theorem mem_cuts_ahead {chunk : ChunkRange} {pos x : Int} :
    x ∈ (cuts.filter fun cp => decide (pos < cp) && reaches chunk cp).reverse ↔
      x ∈ cuts ∧ pos < x ∧ reaches chunk x = true := by
  simp only [List.mem_reverse, List.mem_filter, Bool.and_eq_true, decide_eq_true_eq]

/-- Once the first entry is taken, a position that was seen is in the queue, or is that entry's, or
is closed. -/
theorem SearchInv.closed_tail {chunks : List ChunkRange} {pos : Int} {path : List ChunkFragment}
    {queue : List (Int × List ChunkFragment)} {visited : List Int}
    (h : SearchInv chunks fileSize best cuts ⟨(pos, path) :: queue, visited⟩) {p : Int}
    (hp : p ∈ visited) :
    (∃ path', (p, path') ∈ queue) ∨ p = pos ∨ Closed fileSize best cuts visited p := by
  rcases h.closed p hp with ⟨path', hq⟩ | hclosed
  · rcases List.mem_cons.mp hq with heq | hq
    · exact Or.inr (Or.inl (Prod.mk.inj heq).1)
    · exact Or.inl ⟨path', hq⟩
  · exact Or.inr (Or.inr hclosed)

/-- A round that runs to its end keeps the invariant. -/
theorem SearchInv.tried {chunks : List ChunkRange} {pos : Int} {path : List ChunkFragment}
    {chunk : ChunkRange} {queue : List (Int × List ChunkFragment)} {visited : List Int}
    {st' : SearchState} (hbest : IsBest chunks best)
    (hgoal : ∀ g, fileSize = some g → g ∈ cuts)
    (h : SearchInv chunks fileSize best cuts ⟨(pos, path) :: queue, visited⟩)
    (hchunk : best.get? pos = some chunk) (hbounded : fileSize = none → chunk.endByte ≠ none)
    (t : CutsTried fileSize chunk pos path
      (cuts.filter fun cp => decide (pos < cp) && reaches chunk cp).reverse
      ⟨queue, visited⟩ st') :
    SearchInv chunks fileSize best cuts st' := by
  obtain ⟨hpos, hpath⟩ := h.tiles pos path List.mem_cons_self
  obtain ⟨hmem, hstart⟩ := hbest.mem pos chunk hchunk
  -- the goal was not among the cuts, so the chunk ends before it and is bounded
  have hshort : ∀ g, fileSize = some g → reaches chunk g = false := by
    intro g hg
    by_contra hreach
    have hin := mem_cuts_ahead.mpr ⟨hgoal g hg, h.below pos hpos g hg, by simpa using hreach⟩
    exact lt_irrefl g (h.below g (t.goal g hg hin) g hg)
  have hend : chunk.endByte ≠ none := by
    intro hopen
    cases hfs : fileSize with
    | none => exact hbounded hfs hopen
    | some g => simpa [reaches, hopen] using hshort g hfs
  have hnew : ∀ x ∈ cuts, pos < x → reaches chunk x = true →
      FragTiles chunks fileSize (some 0) (path ++ [⟨chunk, readLimit chunk pos x⟩]) (some x) := by
    intro x _ hlt hreach
    subst hstart
    obtain ⟨hlimit, hnext⟩ := readLimit_spec hlt hreach fun hopen => absurd hopen hend
    exact hpath.concat hmem rfl hlimit hnext
  refine ⟨fun p path' hin => ?_, ?_, fun p hin g hg => ?_, fun p hin => ?_, fun p hin => ?_⟩
  · rcases t.new _ hin with hold | ⟨hc, hp⟩
    · obtain ⟨hseen, htiles⟩ := h.tiles p path' (List.mem_cons_of_mem _ hold)
      exact ⟨(t.visited p).mpr (Or.inl hseen), htiles⟩
    · obtain ⟨hcuts, hlt, hreach⟩ := mem_cuts_ahead.mp hc
      rw [show path' = _ from hp]
      exact ⟨(t.visited p).mpr (Or.inr hc), hnew p hcuts hlt hreach⟩
  · exact (t.visited 0).mpr (Or.inl h.zero)
  · rcases (t.visited p).mp hin with hold | hc
    · exact h.below p hold g hg
    · obtain ⟨-, -, hreach⟩ := mem_cuts_ahead.mp hc
      by_contra hge
      have hg' : reaches chunk g = true := by
        obtain ⟨_, e⟩ := chunk
        cases e with
        | none => rfl
        | some e => simp only [reaches, decide_eq_true_eq] at hreach ⊢; omega
      simp [hshort g hg] at hg'
  · rcases (t.visited p).mp hin with hold | hc
    · rcases h.entered p hold with h0 | ⟨hcuts, q, hq, hfrom⟩
      · exact Or.inl h0
      · exact Or.inr ⟨hcuts, q, (t.visited q).mpr (Or.inl hq), hfrom⟩
    · obtain ⟨hcuts, hlt, hreach⟩ := mem_cuts_ahead.mp hc
      exact Or.inr ⟨hcuts, pos, (t.visited pos).mpr (Or.inl hpos), chunk, hchunk, hlt, hreach⟩
  · -- what was seen before is still queued, or closed; the position just taken is closed now
    have hseen : ∀ x ∈ visited, (∃ path', (x, path') ∈ st'.queue) ∨
        Closed fileSize best cuts st'.visited x := by
      intro x hx
      rcases h.closed_tail hx with ⟨path', hq⟩ | rfl | hclosed
      · exact Or.inl ⟨path', t.kept _ hq⟩
      · refine Or.inr fun c hc => ?_
        obtain rfl : chunk = c := Option.some.inj (hchunk.symm.trans hc)
        exact ⟨hbounded, fun cut hcuts hlt hreach =>
          (t.visited cut).mpr (Or.inr (mem_cuts_ahead.mpr ⟨hcuts, hlt, hreach⟩))⟩
      · exact Or.inr (hclosed.mono fun y hy => (t.visited y).mpr (Or.inl hy))
    rcases (t.visited p).mp hin with hold | hc
    · exact hseen p hold
    · rcases t.queued p hc with hold | hq
      · exact hseen p hold
      · exact Or.inl hq

/-- One round: a `return` returns a tiling of the file, and otherwise the invariant is kept. -/
theorem SearchInv.round {chunks : List ChunkRange} {pos : Int} {path : List ChunkFragment}
    {queue : List (Int × List ChunkFragment)} {visited : List Int} (hbest : IsBest chunks best)
    (hgoal : ∀ g, fileSize = some g → g ∈ cuts)
    (h : SearchInv chunks fileSize best cuts ⟨(pos, path) :: queue, visited⟩) :
    (∀ found, bfsStep fileSize best cuts pos path ⟨queue, visited⟩ = .inl found →
      FragTiles chunks fileSize (some 0) found fileSize) ∧
    ∀ st', bfsStep fileSize best cuts pos path ⟨queue, visited⟩ = .inr st' →
      SearchInv chunks fileSize best cuts st' := by
  obtain ⟨hpos, hpath⟩ := h.tiles pos path List.mem_cons_self
  have hnot : fileSize ≠ some pos := fun hg => lt_irrefl pos (h.below pos hpos pos hg)
  simp only [bfsStep, if_neg hnot]
  cases hchunk : best.get? pos with
  | none =>
      refine ⟨fun found hf => (by simp at hf), fun st' hst => ?_⟩
      obtain rfl : _ = st' := Sum.inr.inj hst
      refine ⟨fun p path' hin => h.tiles p path' (List.mem_cons_of_mem _ hin), h.zero, h.below,
        h.entered, fun p hin => ?_⟩
      rcases h.closed_tail hin with hq | rfl | hclosed
      · exact Or.inl hq
      · exact Or.inr fun c hc => by simp [hchunk] at hc
      · exact Or.inr hclosed
  | some chunk =>
      obtain ⟨hmem, hstart⟩ := hbest.mem pos chunk hchunk
      simp only
      split
      · -- no file size, and a chunk that is read until EOF
        rename_i hopen
        refine ⟨fun found hf => ?_, fun st' hst => by simp at hst⟩
        obtain rfl : _ = found := Sum.inl.inj hf
        refine hpath.concat hmem (by rw [hstart]) (fun k hk => by simp at hk) ?_
        simp [ChunkFragment.next, hopen.1, hopen.2]
      · rename_i hopen
        refine ⟨fun found hf => ?_, fun st' hst => ?_⟩
        · obtain ⟨goal, hin, hg, rfl⟩ := tryCuts_inl hf
          obtain ⟨-, hlt, hreach⟩ := mem_cuts_ahead.mp hin
          subst hstart
          obtain ⟨hlimit, hnext⟩ := readLimit_spec hlt hreach fun _ => hg
          exact hpath.concat hmem rfl hlimit (hnext.trans hg.symm)
        · exact h.tried hbest hgoal hchunk (fun hfs hend => hopen ⟨hfs, hend⟩) (tryCuts_inr hst)

/-! ### When the queue runs empty -/

/-- A search that has run empty: everything seen is closed. -/
structure Exhausted (fileSize : Option Int) (best : Dict Int ChunkRange)
    (cuts visited : List Int) : Prop where
  zero : (0 : Int) ∈ visited
  below : ∀ p ∈ visited, ∀ g, fileSize = some g → p < g
  entered : ∀ p ∈ visited, p = 0 ∨ p ∈ cuts ∧ ∃ q ∈ visited, EnteredFrom best q p
  closed : ∀ p ∈ visited, Closed fileSize best cuts visited p

theorem SearchInv.exhausted {chunks : List ChunkRange} {visited : List Int}
    (h : SearchInv chunks fileSize best cuts ⟨[], visited⟩) :
    Exhausted fileSize best cuts visited where
  zero := h.zero
  below := h.below
  entered := h.entered
  closed := fun p hp => (h.closed p hp).resolve_left fun ⟨_, hq⟩ => by cases hq

theorem Exhausted.nonneg {visited : List Int} (h : Exhausted fileSize best cuts visited)
    (hcuts : ∀ c ∈ cuts, 0 ≤ c) {p : Int} (hp : p ∈ visited) : 0 ≤ p := by
  rcases h.entered p hp with rfl | ⟨hc, -⟩
  · exact le_rfl
  · exact hcuts p hc

/-- Every start at or below a position that was seen has been seen. -/
theorem Exhausted.starts_below {visited : List Int} (h : Exhausted fileSize best cuts visited)
    (hcuts : ∀ c ∈ cuts, 0 ≤ c) {s : Int} (hs : s ∈ cuts) :
    ∀ {p : Int}, p ∈ visited → s ≤ p → s ∈ visited := by
  intro p
  -- induction along the positions `p` was entered from
  induction hn : p.toNat using Nat.strongRecOn generalizing p with
  | ind n ih =>
      intro hp hle
      have hp0 := h.nonneg hcuts hp
      rcases h.entered p hp with rfl | ⟨-, q, hq, c, hc, hlt, hreach⟩
      · obtain rfl : s = 0 := le_antisymm hle (hcuts s hs)
        exact hp
      · by_cases hqs : q < s
        · refine (h.closed q hq c hc).2 s hs hqs ?_
          obtain ⟨_, e⟩ := c
          cases e with
          | none => rfl
          | some e => simp only [reaches, decide_eq_true_eq] at hreach ⊢; omega
        · have hq0 := h.nonneg hcuts hq
          exact ih q.toNat (by omega) rfl hq (not_lt.mp hqs)

/-- A search that has run empty has met a byte of the file that no chunk has. -/
theorem Exhausted.gap {chunks : List ChunkRange} {visited : List Int} (hbest : IsBest chunks best)
    (hgoal : ∀ g, fileSize = some g → g ∈ cuts) (hstarts : ∀ c ∈ chunks, c.start ∈ cuts)
    (hcuts : ∀ x ∈ cuts, x ∈ best.keys ∨ fileSize = some x) (hnonneg : ∀ c ∈ cuts, 0 ≤ c)
    (h : Exhausted fileSize best cuts visited) (h0 : (0 : Int) ∈ best.keys) :
    ∃ x, 0 ≤ x ∧ (∀ g, fileSize = some g → x < g) ∧ ∀ c ∈ chunks, ¬ c.Has x := by
  -- every position seen has a best chunk, and that chunk is bounded before the goal
  have hlast : ∀ p ∈ visited, ∃ c e, best.get? p = some c ∧ c.endByte = some e ∧
      ∀ g, fileSize = some g → e + 1 < g := by
    intro p hp
    have hkey : p ∈ best.keys := by
      rcases h.entered p hp with rfl | ⟨hc, -⟩
      · exact h0
      · exact (hcuts p hc).resolve_right fun hg => lt_irrefl p (h.below p hp p hg)
    obtain ⟨c, hc⟩ := Dict.mem_keys_iff.mp hkey
    have hshort : ∀ g, fileSize = some g → reaches c g = false := by
      intro g hg
      by_contra hreach
      have hin := (h.closed p hp c hc).2 g (hgoal g hg) (h.below p hp g hg) (by simpa using hreach)
      exact lt_irrefl g (h.below g hin g hg)
    obtain ⟨s, e⟩ := c
    cases e with
    | none =>
        cases hfs : fileSize with
        | none => exact absurd rfl ((h.closed p hp _ hc).1 hfs)
        | some g => simpa [reaches] using hshort g hfs
    | some e =>
        refine ⟨_, e, hc, rfl, fun g hg => ?_⟩
        simpa [reaches] using hshort g hg
  choose! chunkAt endAt hchunkAt hendAt hbefore using hlast
  obtain ⟨q, hq, hmax⟩ : ∃ q ∈ visited, ∀ p ∈ visited, endAt p ≤ endAt q := by
    have hne : visited.toFinset.Nonempty := ⟨0, by simpa using h.zero⟩
    obtain ⟨q, hq, hmax⟩ := Finset.exists_max_image visited.toFinset endAt hne
    exact ⟨q, by simpa using hq, fun p hp => hmax p (by simpa using hp)⟩
  by_cases hneg : endAt q + 1 < 0
  · -- even byte 0 is not covered by the chunk at 0
    refine ⟨0, le_rfl, fun g hg => h.below 0 h.zero g hg, fun c hc hhas => ?_⟩
    have hs : c.start = 0 := le_antisymm hhas.1 (hnonneg _ (hstarts c hc))
    obtain ⟨kept, hkept, hle⟩ := hbest.furthest c hc
    rw [hs, hchunkAt 0 h.zero] at hkept
    obtain rfl : chunkAt 0 = kept := Option.some.inj hkept
    have hreach : reaches c 1 = true := by
      obtain ⟨_, e⟩ := c
      cases e with
      | none => rfl
      | some e => have := hhas.2 e rfl; simp only [reaches, decide_eq_true_eq]; omega
    have hreach' := reaches_of_not_reachGt hle hreach
    simp only [reaches, hendAt 0 h.zero, decide_eq_true_eq] at hreach'
    have := hmax 0 h.zero
    omega
  · refine ⟨endAt q + 1, not_lt.mp hneg, hbefore q hq, fun c hc hhas => ?_⟩
    -- the start of a chunk that had this byte would have been seen, and reached further
    have hseen : c.start ∈ visited := by
      by_cases hqs : q < c.start
      · refine (h.closed q hq _ (hchunkAt q hq)).2 c.start (hstarts c hc) hqs ?_
        simpa [reaches, hendAt q hq] using hhas.1
      · exact h.starts_below hnonneg (hstarts c hc) hq (not_lt.mp hqs)
    obtain ⟨kept, hkept, hle⟩ := hbest.furthest c hc
    rw [hchunkAt c.start hseen] at hkept
    obtain rfl : chunkAt c.start = kept := Option.some.inj hkept
    have hreach : reaches c (endAt q + 2) = true := by
      obtain ⟨_, e⟩ := c
      cases e with
      | none => rfl
      | some e => have := hhas.2 e rfl; simp only [reaches, decide_eq_true_eq]; omega
    have hreach' := reaches_of_not_reachGt hle hreach
    simp only [reaches, hendAt c.start hseen, decide_eq_true_eq] at hreach'
    have := hmax c.start hseen
    omega

end Search

/-! ### `calculate_optimal_coverage` -/

theorem mem_cutPoints {starts : List Int} {fileSize : Option Int} {x : Int} :
    x ∈ cutPoints starts fileSize → x ∈ starts ∨ fileSize = some x := by
  intro h
  cases fileSize with
  | none => exact Or.inl h
  | some size =>
      simp only [cutPoints, List.mem_insertionSort] at h
      split at h
      · exact Or.inl h
      · rcases List.mem_cons.mp h with rfl | h
        · exact Or.inr rfl
        · exact Or.inl h

theorem mem_cutPoints_of_start {starts : List Int} (fileSize : Option Int) {x : Int}
    (h : x ∈ starts) : x ∈ cutPoints starts fileSize := by
  cases fileSize with
  | none => exact h
  | some size =>
      simp only [cutPoints, List.mem_insertionSort]
      split
      · exact h
      · exact List.mem_cons_of_mem _ h

theorem mem_cutPoints_size (starts : List Int) (size : Int) :
    size ∈ cutPoints starts (some size) := by
  simp only [cutPoints, List.mem_insertionSort]
  split
  · assumption
  · exact List.mem_cons_self

/-- The search as `calculate_optimal_coverage` starts it satisfies the invariant. -/
theorem searchInv_start {chunks : List ChunkRange} {fileSize : Option Int}
    (hsize : ∀ g, fileSize = some g → 0 < g) (best : Dict Int ChunkRange) (cuts : List Int) :
    SearchInv chunks fileSize best cuts ⟨[(0, [])], [0]⟩ where
  tiles := by
    intro p path h
    obtain ⟨rfl, rfl⟩ := Prod.mk.inj (List.mem_singleton.mp h)
    exact ⟨List.mem_singleton_self 0, rfl⟩
  zero := List.mem_singleton_self 0
  below := by
    intro p hp g hg
    obtain rfl := List.mem_singleton.mp hp
    exact hsize g hg
  entered := fun p hp => Or.inl (List.mem_singleton.mp hp)
  closed := by
    intro p hp
    obtain rfl := List.mem_singleton.mp hp
    exact Or.inl ⟨[], List.mem_singleton_self _⟩

/-- The cuts `calculate_optimal_coverage` searches over. -/
def coverageCuts (chunks : List ChunkRange) (fileSize : Option Int) : List Int :=
  cutPoints ((bestChunks chunks).keys.insertionSort (· ≤ ·)) fileSize

theorem goal_mem_coverageCuts (chunks : List ChunkRange) {fileSize : Option Int} :
    ∀ g, fileSize = some g → g ∈ coverageCuts chunks fileSize := by
  rintro g rfl
  exact mem_cutPoints_size _ g

/-- What the rounds keep, and what every `return` of a round has, holds of what
`calculate_optimal_coverage` returns. -/
theorem calculateOptimalCoverage_rule {chunks : List ChunkRange} {fileSize : Option Int}
    {fragments : List ChunkFragment} {Inv : SearchState → Prop}
    {Result : List ChunkFragment → Prop} (hstart : Inv ⟨[(0, [])], [0]⟩)
    (hstep : ∀ pos path queue visited, Inv ⟨(pos, path) :: queue, visited⟩ →
      (∀ found, bfsStep fileSize (bestChunks chunks) (coverageCuts chunks fileSize) pos path
          ⟨queue, visited⟩ = .inl found → Result found) ∧
      ∀ st', bfsStep fileSize (bestChunks chunks) (coverageCuts chunks fileSize) pos path
          ⟨queue, visited⟩ = .inr st' → Inv st')
    (h : calculateOptimalCoverage chunks fileSize = .ok fragments) : Result fragments := by
  unfold calculateOptimalCoverage at h
  split at h
  · cases h
  · simp only at h
    split at h
    · cases h
    · split at h
      · rename_i path hbfs
        obtain rfl : path = fragments := Except.ok.inj h
        exact (bfs_rule hstep _ _ hstart).1 path hbfs
      · cases h

/-- **Soundness.** What `calculate_optimal_coverage` returns tiles the file. -/
theorem calculateOptimalCoverage_sound {chunks : List ChunkRange} {fileSize : Option Int}
    {fragments : List ChunkFragment} (hsize : ∀ g, fileSize = some g → 0 < g)
    (h : calculateOptimalCoverage chunks fileSize = .ok fragments) :
    FragTiles chunks fileSize (some 0) fragments fileSize :=
  calculateOptimalCoverage_rule (searchInv_start hsize _ _)
    (fun _ _ _ _ hinv => hinv.round (isBest_bestChunks chunks) (goal_mem_coverageCuts chunks)) h

/-- **Completeness.** If every byte of the file is in a chunk, `calculate_optimal_coverage`
returns. -/
theorem calculateOptimalCoverage_complete {chunks : List ChunkRange} {fileSize : Option Int}
    (hsize : ∀ g, fileSize = some g → 0 < g) (hstart : ∀ c ∈ chunks, 0 ≤ c.start)
    (hcover : ∀ x, 0 ≤ x → (∀ g, fileSize = some g → x < g) → ∃ c ∈ chunks, c.Has x) :
    ∃ fragments, calculateOptimalCoverage chunks fileSize = .ok fragments := by
  have hbest := isBest_bestChunks chunks
  have hkeys : ∀ c ∈ chunks, c.start ∈ (bestChunks chunks).keys := fun c hc =>
    Dict.mem_keys_iff.mpr ((hbest.furthest c hc).imp fun _ h => h.1)
  obtain ⟨c₀, hc₀, hhas₀⟩ := hcover 0 le_rfl hsize
  have hzero : c₀.start = 0 := le_antisymm hhas₀.1 (hstart c₀ hc₀)
  have h0 : (0 : Int) ∈ (bestChunks chunks).keys := hzero ▸ hkeys c₀ hc₀
  have hne : chunks ≠ [] := List.ne_nil_of_mem hc₀
  set starts := (bestChunks chunks).keys.insertionSort (· ≤ ·) with hstarts
  have hmem : ∀ x, x ∈ starts ↔ x ∈ (bestChunks chunks).keys := by simp [hstarts]
  have hfirst : ¬ 0 < starts.headD 0 := by
    have hsorted : starts.Pairwise (· ≤ ·) := List.pairwise_insertionSort _ _
    cases hs : starts with
    | nil => simp
    | cons s rest =>
        rw [hs, List.pairwise_cons] at hsorted
        rcases List.mem_cons.mp (hs ▸ (hmem 0).mpr h0) with rfl | hin
        · simp
        · simpa using hsorted.1 0 hin
  set cuts := cutPoints starts fileSize with hcuts
  -- the search has a round for each cut and one for the start
  have hbudget : pendingWork cuts ⟨[(0, [])], [0]⟩ ≤ cuts.length + 1 := by
    simp only [pendingWork, List.length_singleton, Nat.add_le_add_iff_right]
    exact List.length_filter_le _ _
  have hgoal : ∀ g, fileSize = some g → g ∈ cuts := by
    rintro g rfl
    exact mem_cutPoints_size _ g
  have hrule := bfs_rule (fun pos path queue visited hinv => hinv.round hbest hgoal)
    (cuts.length + 1) _ (searchInv_start hsize (bestChunks chunks) cuts)
  unfold calculateOptimalCoverage
  simp only [if_neg hne, ← hstarts, if_neg hfirst, ← hcuts]
  cases hbfs : bfs fileSize (bestChunks chunks) cuts (cuts.length + 1) ⟨[(0, [])], [0]⟩ with
  | none => exact absurd hbfs (bfs_ne_none _ _ hbudget)
  | some result =>
      cases result with
      | some path => exact ⟨path, rfl⟩
      | none =>
          -- a search that ends without a path has found a byte that no chunk has
          obtain ⟨visited, hinv⟩ := hrule.2 hbfs
          obtain ⟨x, hx0, hx, hnone⟩ := hinv.exhausted.gap hbest hgoal
            (fun c hc => mem_cutPoints_of_start _ ((hmem _).mpr (hkeys c hc)))
            (fun x hx => (mem_cutPoints hx).imp_left (hmem x).mp)
            (fun x hx => by
              rcases mem_cutPoints hx with hin | hg
              · obtain ⟨c, hc⟩ := Dict.mem_keys_iff.mp ((hmem x).mp hin)
                obtain ⟨hmem', rfl⟩ := hbest.mem x c hc
                exact hstart c hmem'
              · exact (hsize x hg).le) h0
          obtain ⟨c, hc, hhas⟩ := hcover x hx0 hx
          exact absurd hhas (hnone c hc)

/-! ### When it returns -/

/-- Every byte of the file is in one of the chunks; without a file size, every byte there is. -/
def Covers (chunks : List ChunkRange) (fileSize : Option Int) : Prop :=
  ∀ x, 0 ≤ x → (∀ g, fileSize = some g → x < g) → ∃ c ∈ chunks, c.Has x

/-- Fragments that follow each other up to the goal leave none of the bytes before it out. -/
theorem FragTiles.covers {chunks : List ChunkRange} {fileSize goal : Option Int} {x : Int}
    (hx : ∀ g, goal = some g → x < g) :
    ∀ {path : List ChunkFragment} {p : Int}, FragTiles chunks fileSize (some p) path goal → p ≤ x →
      ∃ f ∈ path, f.range.Has x := by
  intro path
  induction path with
  | nil =>
      intro p h hle
      exact absurd (hx p h.symm) (not_lt.mpr hle)
  | cons f rest ih =>
      intro p h hle
      obtain ⟨-, hstart, hlimit, hrest⟩ := h
      obtain ⟨⟨s, e⟩, limit⟩ := f
      obtain rfl : s = p := Option.some.inj hstart
      have tail : ∀ n, ChunkFragment.next fileSize ⟨⟨s, e⟩, limit⟩ = some n →
          (x < n → ChunkRange.Has ⟨s, e⟩ x) → ∃ f ∈ ⟨⟨s, e⟩, limit⟩ :: rest, f.range.Has x := by
        intro n hn hhas
        by_cases hlt : x < n
        · exact ⟨_, List.mem_cons_self, hhas hlt⟩
        · obtain ⟨f, hf, hf'⟩ := ih (hn ▸ hrest) (not_lt.mp hlt)
          exact ⟨f, List.mem_cons_of_mem _ hf, hf'⟩
      cases limit with
      | some k =>
          obtain ⟨-, e', rfl, hk⟩ := hlimit k rfl
          refine tail (s + k) rfl fun hlt => ⟨hle, fun e he => ?_⟩
          obtain rfl := Option.some.inj he
          simp only at hk
          omega
      | none =>
          cases e with
          | some e =>
              refine tail (e + 1) rfl fun hlt => ⟨hle, fun e' he => ?_⟩
              obtain rfl := Option.some.inj he
              exact Int.lt_add_one_iff.mp hlt
          | none =>
              -- an open chunk has every byte from its start on
              exact ⟨_, List.mem_cons_self, hle, fun e he => by cases he⟩

/-- Queued paths use the chunks of positions seen. -/
def SearchState.Rooted (st : SearchState) : Prop :=
  ∀ entry ∈ st.queue, ∀ f ∈ entry.2, f.range.start ∈ st.visited

/-- One round keeps paths rooted, and so is a path it returns. -/
theorem rooted_round (fileSize : Option Int) (cuts : List Int) {chunks : List ChunkRange}
    {best : Dict Int ChunkRange} {pos : Int} {path : List ChunkFragment}
    {queue : List (Int × List ChunkFragment)} {visited : List Int} (hbest : IsBest chunks best)
    (hpos : pos ∈ visited) (h : SearchState.Rooted ⟨(pos, path) :: queue, visited⟩) :
    (∀ found, bfsStep fileSize best cuts pos path ⟨queue, visited⟩ = .inl found →
      ∀ f ∈ found, f.range.start ∈ visited) ∧
    ∀ st', bfsStep fileSize best cuts pos path ⟨queue, visited⟩ = .inr st' → st'.Rooted := by
  have hpath : ∀ f ∈ path, f.range.start ∈ visited := h _ List.mem_cons_self
  unfold bfsStep
  split
  · refine ⟨fun found hf => ?_, fun st' hst => by simp at hst⟩
    obtain rfl : path = found := Sum.inl.inj hf
    exact hpath
  · cases hchunk : best.get? pos with
    | none =>
        refine ⟨fun found hf => by simp at hf, fun st' hst => ?_⟩
        obtain rfl : _ = st' := Sum.inr.inj hst
        exact fun entry hentry => h entry (List.mem_cons_of_mem _ hentry)
    | some chunk =>
        have hstart : chunk.start = pos := (hbest.mem pos chunk hchunk).2
        have hlonger : ∀ limit, ∀ f ∈ path ++ [⟨chunk, limit⟩], f.range.start ∈ visited := by
          intro limit f hf
          rcases List.mem_append.mp hf with hf | hf
          · exact hpath f hf
          · obtain rfl := List.mem_singleton.mp hf
            exact hstart ▸ hpos
        simp only
        split
        · refine ⟨fun found hf => ?_, fun st' hst => by simp at hst⟩
          obtain rfl : _ = found := Sum.inl.inj hf
          exact hlonger none
        · refine ⟨fun found hf => ?_, fun st' hst entry hentry f hf => ?_⟩
          · obtain ⟨goal, -, -, rfl⟩ := tryCuts_inl hf
            exact hlonger _
          · have t := tryCuts_inr hst
            refine (t.visited _).mpr (Or.inl ?_)
            rcases t.new entry hentry with hold | ⟨-, hnew⟩
            · exact h entry (List.mem_cons_of_mem _ hold) f hf
            · rw [hnew] at hf
              exact hlonger _ f hf

/-- The fragments start inside the file. -/
theorem calculateOptimalCoverage_starts {chunks : List ChunkRange} {fileSize : Option Int}
    {fragments : List ChunkFragment} (hsize : ∀ g, fileSize = some g → 0 < g)
    (h : calculateOptimalCoverage chunks fileSize = .ok fragments) :
    ∀ f ∈ fragments, ∀ g, fileSize = some g → f.range.start < g := by
  have hbest := isBest_bestChunks chunks
  have hgoal := @goal_mem_coverageCuts chunks fileSize
  refine @calculateOptimalCoverage_rule chunks fileSize fragments
    (fun st => SearchInv chunks fileSize (bestChunks chunks) (coverageCuts chunks fileSize) st ∧
      st.Rooted)
    (fun path => ∀ f ∈ path, ∀ g, fileSize = some g → f.range.start < g)
    ⟨searchInv_start hsize _ _, fun entry hentry => ?_⟩ ?_ h
  · obtain rfl := List.mem_singleton.mp hentry
    simp
  · rintro pos path queue visited ⟨hinv, hrooted⟩
    have hkept := hinv.round hbest hgoal
    have hroots := rooted_round fileSize (coverageCuts chunks fileSize) hbest
      (hinv.tiles pos path List.mem_cons_self).1 hrooted
    exact ⟨fun found hf f hin g hg => hinv.below _ (hroots.1 found hf f hin) g hg,
      fun st' hst => ⟨hkept.2 st' hst, hroots.2 st' hst⟩⟩

/-- **Coverage is sound and complete.** Over chunks that start inside the file and are not empty,
`calculate_optimal_coverage` returns where they leave no byte of the file out, and then a tiling of
the file by fragments that start inside it; anywhere else it raises. -/
theorem calculateOptimalCoverage_returns_iff (chunks : List ChunkRange) (fileSize : Option Int)
    (hsize : ∀ g, fileSize = some g → 1 ≤ g)
    (hchunks : ∀ c ∈ chunks, 0 ≤ c.start ∧ ∀ e ∈ c.endByte, c.start ≤ e) :
    match calculateOptimalCoverage chunks fileSize with
    | .ok fragments =>
        Covers chunks fileSize ∧ FragTiles chunks fileSize (some 0) fragments fileSize ∧
          ∀ f ∈ fragments, ∀ g, fileSize = some g → f.range.start < g
    | .error _ => ¬ Covers chunks fileSize := by
  cases h : calculateOptimalCoverage chunks fileSize with
  | ok fragments =>
      have htiles := calculateOptimalCoverage_sound (fun g hg => hsize g hg) h
      refine ⟨fun x hx0 hx => ?_, htiles,
        calculateOptimalCoverage_starts (fun g hg => hsize g hg) h⟩
      obtain ⟨f, hf, hhas⟩ := htiles.covers hx hx0
      exact ⟨f.range, (htiles.of_mem hf).1, hhas⟩
  | error err =>
      intro hcover
      obtain ⟨fragments, hok⟩ := calculateOptimalCoverage_complete (fun g hg => hsize g hg)
        (fun c hc => (hchunks c hc).1) hcover
      rw [hok] at h
      cases h

/-- Overlapping chunks, one of them nested and one past the end of the file. -/
theorem calculateOptimalCoverage_returns_nested :
    match calculateOptimalCoverage [⟨4, some 9⟩, ⟨0, some 5⟩, ⟨1, some 2⟩] (some 8) with
    | .ok fragments =>
        Covers [⟨4, some 9⟩, ⟨0, some 5⟩, ⟨1, some 2⟩] (some 8) ∧
          FragTiles [⟨4, some 9⟩, ⟨0, some 5⟩, ⟨1, some 2⟩] (some 8) (some 0) fragments
            (some 8) ∧
          ∀ f ∈ fragments, ∀ g, some 8 = some g → f.range.start < g
    | .error _ => ¬ Covers [⟨4, some 9⟩, ⟨0, some 5⟩, ⟨1, some 2⟩] (some 8) :=
  calculateOptimalCoverage_returns_iff [⟨4, some 9⟩, ⟨0, some 5⟩, ⟨1, some 2⟩] (some 8)
    (by simp) (by decide)

end SDownload
