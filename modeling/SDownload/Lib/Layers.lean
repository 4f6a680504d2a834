import Mathlib.Data.Set.Basic
import Mathlib.Data.List.Nodup

/-!
# SDownload.Lib.Layers

Breadth-first search, over an arbitrary type of nodes and an arbitrary edge
relation. `Within edge source d p` says that `p` is reached from `source` by at
most `d` edges.

`Layered` is what such a search maintains: the queue holds nodes of two adjacent
layers in order, each with its distance, everything in the layers before has been
visited, and a visited node no longer queued has had its edges followed. Taking
the first node and appending the unvisited nodes behind its edges keeps it
(`Layered.pop`), and a node met for the first time from the head of the queue is
at exactly one more than the head's distance (`Layered.fresh`).

`Explored` is for a search that finds its edges on the way: they are known behind
the nodes that were taken, and nowhere else. When nothing waits any more, the nodes
that were taken are those the search can reach over the edges it has found, each at
its distance (`Explored.taken_iff`).
-/

namespace Layers

variable {ν : Type*} {edge : ν → ν → Prop} {source : ν}

/-- `p` is reached from `source` by at most this many edges. -/
inductive Within (edge : ν → ν → Prop) (source : ν) : Nat → ν → Prop
  | source {d : Nat} : Within edge source d source
  | step {d : Nat} {p q : ν} : Within edge source d p → edge p q → Within edge source (d + 1) q

theorem Within.mono {d d' : Nat} {p : ν} (h : Within edge source d p) (hle : d ≤ d') :
    Within edge source d' p := by
  induction h generalizing d' with
  | source => exact .source
  | step _ hedge ih =>
      obtain ⟨d'', rfl⟩ : ∃ d'', d' = d'' + 1 := ⟨d' - 1, by omega⟩
      exact .step (ih (by omega)) hedge

/-- A queue that stands at layer `m`, and what has been visited by then. -/
structure Layered (edge : ν → ν → Prop) (source : ν) (m : Nat) (queue : List (ν × Nat))
    (visited : Set ν) : Prop where
  sorted : queue.Pairwise fun a b => a.2 ≤ b.2
  between : ∀ e ∈ queue, m ≤ e.2 ∧ e.2 ≤ m + 1
  shortest : ∀ e ∈ queue, Within edge source e.2 e.1 ∧
    ∀ d, Within edge source d e.1 → e.2 ≤ d
  reached : ∀ p, Within edge source m p → p ∈ visited
  closed : ∀ p ∈ visited, (∃ d, (p, d) ∈ queue) ∨ ∀ q, edge p q → q ∈ visited

/-- The search as it starts. -/
theorem layered_start (edge : ν → ν → Prop) (source : ν) :
    Layered edge source 0 [(source, 0)] {source} where
  sorted := List.pairwise_singleton _ _
  between := by
    intro e he
    obtain rfl := List.mem_singleton.mp he
    exact ⟨le_rfl, Nat.zero_le _⟩
  shortest := by
    intro e he
    obtain rfl := List.mem_singleton.mp he
    exact ⟨.source, fun d _ => Nat.zero_le d⟩
  reached := by
    intro p h
    cases h with
    | source => exact rfl
  closed := by
    intro p hp
    obtain rfl : p = source := hp
    exact Or.inl ⟨0, List.mem_singleton_self _⟩

namespace Layered

variable {m d : Nat} {queue added : List (ν × Nat)} {visited visited' : Set ν} {p : ν}

/-- Once only the next layer is queued, the queue stands at that layer. -/
theorem advance (h : Layered edge source m queue visited) (hnext : ∀ e ∈ queue, e.2 = m + 1) :
    Layered edge source (m + 1) queue visited where
  sorted := h.sorted
  between := fun e he => ⟨(hnext e he).ge, by rw [hnext e he]; omega⟩
  shortest := h.shortest
  reached := by
    intro x hx
    cases hx with
    | source => exact h.reached _ .source
    | step hq hedge =>
        rename_i q
        rcases h.closed q (h.reached q hq) with ⟨k, hk⟩ | hclosed
        · -- a queued node is not in an earlier layer
          have hle := (h.shortest _ hk).2 m hq
          have heq := hnext _ hk
          simp only at hle heq
          omega
        · exact hclosed x hedge
  closed := h.closed

/-- The queue stands at the layer of its first node. -/
theorem at_head (h : Layered edge source m ((p, d) :: queue) visited) :
    Layered edge source d ((p, d) :: queue) visited := by
  obtain ⟨hge, hle⟩ := h.between _ List.mem_cons_self
  simp only at hge hle
  by_cases heq : d = m
  · rw [heq] at h ⊢
    exact h
  · have hd : d = m + 1 := by omega
    rw [hd] at h ⊢
    refine h.advance fun e he => ?_
    rcases List.mem_cons.mp he with rfl | he
    · rfl
    · have h1 := (List.pairwise_cons.mp h.sorted).1 e he
      have h2 := (h.between e (List.mem_cons_of_mem _ he)).2
      simp only at h1
      omega

/-- A node not visited yet, behind an edge of the first node, is one step further away. -/
theorem fresh (h : Layered edge source d ((p, d) :: queue) visited) {x : ν} (hedge : edge p x)
    (hnew : x ∉ visited) :
    Within edge source (d + 1) x ∧ ∀ k, Within edge source k x → d + 1 ≤ k := by
  refine ⟨.step (h.shortest _ List.mem_cons_self).1 hedge, fun k hk => ?_⟩
  by_contra hlt
  exact hnew (h.reached x (hk.mono (by omega)))

/-- **One round.** The first node leaves the queue, and the nodes behind its edges that were not
visited yet join it. -/
theorem pop (h : Layered edge source d ((p, d) :: queue) visited)
    (hadded : ∀ e ∈ added, edge p e.1 ∧ e.1 ∉ visited ∧ e.2 = d + 1)
    (hmono : ∀ x ∈ visited, x ∈ visited') (hedges : ∀ x, edge p x → x ∈ visited')
    (hnew : ∀ x ∈ visited', x ∈ visited ∨ ∃ e ∈ added, e.1 = x) :
    Layered edge source d (queue ++ added) visited' where
  sorted := by
    refine List.pairwise_append.mpr ⟨(List.pairwise_cons.mp h.sorted).2, ?_, fun a ha b hb => ?_⟩
    · refine List.pairwise_of_forall_mem_list fun a ha b hb => ?_
      exact ((hadded a ha).2.2.trans (hadded b hb).2.2.symm).le
    · rw [(hadded b hb).2.2]
      exact (h.between a (List.mem_cons_of_mem _ ha)).2
  between := by
    intro e he
    rcases List.mem_append.mp he with he | he
    · exact h.between e (List.mem_cons_of_mem _ he)
    · rw [(hadded e he).2.2]
      exact ⟨Nat.le_succ d, le_rfl⟩
  shortest := by
    intro e he
    rcases List.mem_append.mp he with he | he
    · exact h.shortest e (List.mem_cons_of_mem _ he)
    · obtain ⟨hedge, hfresh, hd⟩ := hadded e he
      rw [hd]
      exact h.fresh hedge hfresh
  reached := fun x hx => hmono x (h.reached x hx)
  closed := by
    intro x hx
    rcases hnew x hx with hold | ⟨e, he, rfl⟩
    · rcases h.closed x hold with ⟨k, hk⟩ | hclosed
      · rcases List.mem_cons.mp hk with heq | hk
        · obtain ⟨rfl, -⟩ := Prod.mk.inj heq
          exact Or.inr hedges
        · exact Or.inl ⟨k, List.mem_append_left _ hk⟩
      · exact Or.inr fun q hq => hmono q (hclosed q hq)
    · exact Or.inl ⟨e.2, List.mem_append_right _ he⟩

end Layered

/-! ### Edges that are found on the way -/

theorem Within.mono_edge {edge edge' : ν → ν → Prop} {d : Nat} {p : ν}
    (h : Within edge source d p) (hedge : ∀ x y, edge x y → edge' x y) :
    Within edge' source d p := by
  induction h with
  | source => exact .source
  | step _ hxy ih => exact .step ih (hedge _ _ hxy)

/-- A search that has taken some nodes, each with its distance, and knows of others that wait. -/
structure Explored (edge : ν → ν → Prop) (source : ν) (taken waiting : List (ν × Nat)) : Prop where
  sorted : (taken ++ waiting).Pairwise fun a b => a.2 ≤ b.2
  span : ∀ e ∈ taken ++ waiting, ∀ e' ∈ waiting, e.2 ≤ e'.2 + 1
  root : (source, 0) ∈ taken ++ waiting
  reached : ∀ e ∈ taken ++ waiting, Within edge source e.2 e.1
  closed : ∀ e ∈ taken, ∀ q, edge e.1 q → ∃ e' ∈ taken ++ waiting, e'.1 = q ∧ e'.2 ≤ e.2 + 1

theorem explored_start {edge : ν → ν → Prop} : Explored edge source [] [(source, 0)] where
  sorted := List.pairwise_singleton _ _
  span e he e' he' := by
    obtain rfl := List.mem_singleton.mp he
    exact Nat.zero_le _
  root := List.mem_singleton_self _
  reached e he := by
    obtain rfl := List.mem_singleton.mp he
    exact .source
  closed e he := absurd he List.not_mem_nil

namespace Explored

variable {edge' : ν → ν → Prop} {taken waiting joined : List (ν × Nat)} {p : ν} {d : Nat}

/-- **One turn.** The first node that waits is taken. The edges behind it are found, and whatever
is behind one of them and was not known joins, one step further away. -/
theorem turn (h : Explored edge source taken ((p, d) :: waiting))
    (hmono : ∀ x y, edge x y → edge' x y)
    (hold : ∀ e ∈ taken, ∀ q, edge' e.1 q → edge e.1 q)
    (hjoined : ∀ e ∈ joined, edge' p e.1 ∧ e.2 = d + 1)
    (hknown : ∀ q, edge' p q → ∃ e ∈ (taken ++ (p, d) :: waiting) ++ joined, e.1 = q) :
    Explored edge' source (taken ++ [(p, d)]) (waiting ++ joined) := by
  have hall : (taken ++ [(p, d)]) ++ (waiting ++ joined) =
      (taken ++ (p, d) :: waiting) ++ joined := by simp
  have hle : ∀ e ∈ (taken ++ (p, d) :: waiting) ++ joined, e.2 ≤ d + 1 := by
    intro e he
    rcases List.mem_append.mp he with he | he
    · exact h.span e he (p, d) List.mem_cons_self
    · exact (hjoined e he).2.le
  have hwait : ∀ e ∈ waiting ++ joined, d ≤ e.2 := by
    intro e he
    rcases List.mem_append.mp he with he | he
    · exact (List.pairwise_cons.mp (List.pairwise_append.mp h.sorted).2.1).1 e he
    · rw [(hjoined e he).2]
      exact Nat.le_succ d
  constructor
  · rw [hall]
    refine List.pairwise_append.mpr ⟨h.sorted, ?_, fun a ha b hb => ?_⟩
    · refine List.pairwise_of_forall_mem_list fun a ha b hb => ?_
      exact ((hjoined a ha).2.trans (hjoined b hb).2.symm).le
    · rw [(hjoined b hb).2]
      exact hle a (List.mem_append_left _ ha)
  · rw [hall]
    intro e he e' he'
    have h1 := hle e he
    have h2 := hwait e' he'
    omega
  · rw [hall]
    exact List.mem_append_left _ h.root
  · rw [hall]
    intro e he
    rcases List.mem_append.mp he with he | he
    · exact (h.reached e he).mono_edge hmono
    · obtain ⟨hedge, hd⟩ := hjoined e he
      rw [hd]
      exact .step ((h.reached (p, d) (by simp)).mono_edge hmono) hedge
  · rw [hall]
    intro e he q hq
    rcases List.mem_append.mp he with he | he
    · obtain ⟨e', he', hkey, hle'⟩ := h.closed e he q (hold e he q hq)
      exact ⟨e', List.mem_append_left _ he', hkey, hle'⟩
    · obtain rfl := List.mem_singleton.mp he
      obtain ⟨e', he', hkey⟩ := hknown q hq
      exact ⟨e', he', hkey, hle e' he'⟩

/-- When nothing waits, whatever can be reached was taken, no later than at its distance. -/
theorem taken_of_within (h : Explored edge source taken []) {q : ν} (hq : Within edge source d q) :
    ∃ e ∈ taken, e.1 = q ∧ e.2 ≤ d := by
  have hnone := List.append_nil taken
  induction hq with
  | source =>
      have hroot := h.root
      rw [hnone] at hroot
      exact ⟨_, hroot, rfl, Nat.zero_le _⟩
  | step _ hedge ih =>
      obtain ⟨e, he, rfl, hle⟩ := ih
      obtain ⟨e', he', hkey, hle'⟩ := h.closed e he _ hedge
      rw [hnone] at he'
      exact ⟨e', he', hkey, by omega⟩

/-- **A search that is over** has taken what can be reached, at its distance. -/
theorem taken_iff (h : Explored edge source taken []) (hnodup : (taken.map Prod.fst).Nodup)
    {q : ν} :
    (q, d) ∈ taken ↔ Within edge source d q ∧ ∀ k, Within edge source k q → d ≤ k := by
  have hreached : ∀ e ∈ taken, Within edge source e.2 e.1 := fun e he =>
    h.reached e (List.mem_append_left _ he)
  constructor
  · intro hmem
    refine ⟨hreached _ hmem, fun k hk => ?_⟩
    obtain ⟨e, he, hkey, hle⟩ := h.taken_of_within hk
    obtain rfl : e = (q, d) := List.inj_on_of_nodup_map hnodup he hmem hkey
    exact hle
  · rintro ⟨hwithin, hleast⟩
    obtain ⟨⟨q', d'⟩, he, rfl, hle⟩ := h.taken_of_within hwithin
    have hge := hleast d' (hreached _ he)
    obtain rfl : d' = d := Nat.le_antisymm hle hge
    exact he

end Explored

end Layers
