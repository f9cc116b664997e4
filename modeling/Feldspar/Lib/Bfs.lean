/-
Feldspar/Lib/Bfs.lean

Breadth-first search.

A graph is a function `adj` that lists the neighbors of a node, each with the
label of the edge to it.  The search keeps the nodes found, each with the link
it was found by, and a queue; a node is found once, when it is first looked at.

`route found v` is the list of links from the root to `v`.  Where the edges of
a node are listed by increasing keys, the nodes are found by increasing routes,
shorter ones first (`Examined.sorted`), and the route of a node comes before
every other walk to it (`route_le_walk`): it is a shortest one, and of the
shortest ones the first in the order of the keys.
-/
import Mathlib.Data.List.Shortlex
import Mathlib.Data.List.Induction
import Mathlib.Data.List.Nodup
import Mathlib.Data.List.Perm.Subperm
import Mathlib.Logic.Function.Basic
import Mathlib.Tactic.Common

set_option linter.unusedSectionVars false

namespace Bfs

variable {V L : Type*} [DecidableEq V]

/-! ### The search -/

/-- A node, the node it was found from, and the label of the edge between them. -/
structure Link (V L : Type*) where
  node : V
  parent : V
  label : L

/-- The nodes found, and the queue. -/
abbrev State (V L : Type*) := List (Link V L) × List V

def seen (root : V) (found : List (Link V L)) : List V := root :: found.map Link.node

/-- One neighbor of `node`. -/
def visit (root node : V) (s : State V L) (next : V × L) : State V L :=
  if next.1 ∈ seen root s.1 then s
  else (s.1 ++ [⟨next.1, node, next.2⟩], s.2 ++ [next.1])

/-- At most `k` nodes are taken from the queue, and none after one with `stop`. -/
def search (adj : V → List (V × L)) (root : V) (stop : V → Bool) : ℕ → State V L → State V L
  | 0, s => s
  | k + 1, (found, queue) =>
      match queue with
      | [] => (found, [])
      | node :: queue =>
          if stop node then (found, queue)
          else search adj root stop k ((adj node).foldl (visit root node) (found, queue))

def start (root : V) : State V L := ([], [root])

/-- A walk, as the links along it. -/
inductive Walk (adj : V → List (V × L)) (root : V) : List (Link V L) → V → Prop
  | nil : Walk adj root [] root
  | snoc {w u p} : Walk adj root w u → p ∈ adj u → Walk adj root (w ++ [⟨p.1, u, p.2⟩]) p.1

/-- The links from the root to a node. -/
def route (found : List (Link V L)) : V → List (Link V L) :=
  found.foldl (fun route g => Function.update route g.node (route g.parent ++ [g])) fun _ => []

section Seen

variable {root u v : V} {found : List (Link V L)} {g : Link V L}

theorem seen_snoc : seen root (found ++ [g]) = seen root found ++ [g.node] := by
  rw [seen, List.map_append]
  rfl

theorem mem_seen_snoc : v ∈ seen root (found ++ [g]) ↔ v ∈ seen root found ∨ v = g.node := by
  rw [seen_snoc, List.mem_append, List.mem_singleton]

theorem root_mem_seen : root ∈ seen root found := List.mem_cons_self

theorem route_snoc : route (found ++ [g])
    = Function.update (route found) g.node (route found g.parent ++ [g]) := by
  rw [route, List.foldl_append]
  rfl

theorem route_snoc_node : route (found ++ [g]) g.node = route found g.parent ++ [g] := by
  rw [route_snoc, Function.update_self]

theorem route_snoc_of_mem (hg : g.node ∉ seen root found) (hv : v ∈ seen root found) :
    route (found ++ [g]) v = route found v := by
  have hne : v ≠ g.node := fun heq => hg (heq ▸ hv)
  rw [route_snoc, Function.update_of_ne hne]

end Seen

/-! ### The order of lists of keys -/

/-- Equal, or before in the shortlex order. -/
def ShortLe (s t : List ℕ) : Prop := s = t ∨ List.Shortlex (· < ·) s t

theorem lex_append {s t u v : List ℕ} (hlen : s.length = t.length) (h : List.Lex (· < ·) s t) :
    List.Lex (· < ·) (s ++ u) (t ++ v) := by
  induction h with
  | nil => simp at hlen
  | cons _ ih => exact .cons (ih (Nat.succ.inj hlen))
  | rel h => exact .rel h

/-- What is appended does not matter. -/
theorem shortlex_snoc {s t : List ℕ} (h : List.Shortlex (· < ·) s t) (i j : ℕ) :
    List.Shortlex (· < ·) (s ++ [i]) (t ++ [j]) := by
  rcases List.shortlex_def.mp h with hlen | ⟨hlen, hlex⟩
  · apply List.Shortlex.of_length_lt
    simpa using hlen
  · apply List.Shortlex.of_lex
    · simpa using hlen
    · exact lex_append hlen hlex

theorem shortlex_last (s : List ℕ) {i j : ℕ} (h : i < j) :
    List.Shortlex (· < ·) (s ++ [i]) (s ++ [j]) :=
  List.Shortlex.append_left ((List.shortlex_singleton_iff i j).mpr h) s

theorem shortlex_trans {s t u : List ℕ} (h : List.Shortlex (· < ·) s t)
    (h' : List.Shortlex (· < ·) t u) : List.Shortlex (· < ·) s u := by
  rcases List.shortlex_def.mp h with hlen | ⟨hlen, hlex⟩
  · rcases List.shortlex_def.mp h' with hlen' | ⟨hlen', -⟩
    · exact .of_length_lt (hlen.trans hlen')
    · exact .of_length_lt (hlen'.symm ▸ hlen)
  · rcases List.shortlex_def.mp h' with hlen' | ⟨hlen', hlex'⟩
    · exact .of_length_lt (hlen ▸ hlen')
    · exact .of_lex (hlen.trans hlen') (lt_trans (α := List ℕ) hlex hlex')

theorem ShortLe.trans {s t u : List ℕ} (h : ShortLe s t) (h' : ShortLe t u) : ShortLe s u := by
  rcases h with rfl | h
  · exact h'
  · rcases h' with rfl | h'
    · exact Or.inr h
    · exact Or.inr (shortlex_trans h h')

theorem ShortLe.snoc {s t : List ℕ} (h : ShortLe s t) (i : ℕ) : ShortLe (s ++ [i]) (t ++ [i]) := by
  rcases h with rfl | h
  · exact Or.inl rfl
  · exact Or.inr (shortlex_snoc h i i)

theorem ShortLe.length_le {s t : List ℕ} (h : ShortLe s t) : s.length ≤ t.length := by
  rcases h with rfl | h
  · exact le_rfl
  · rcases List.shortlex_def.mp h with hlen | ⟨hlen, -⟩
    · exact hlen.le
    · exact hlen.le

theorem ShortLe.antisymm {s t : List ℕ} (h : ShortLe s t) (h' : ShortLe t s) : s = t := by
  rcases h with rfl | h
  · rfl
  · rcases h' with rfl | h'
    · rfl
    · exact absurd h' (Std.Asymm.asymm _ _ h)

theorem shortLe_or_shortlex (s t : List ℕ) : ShortLe s t ∨ List.Shortlex (· < ·) t s := by
  rcases lt_trichotomy s.length t.length with hlen | hlen | hlen
  · exact Or.inl (Or.inr (.of_length_lt hlen))
  · rcases lt_trichotomy s t with h | h | h
    · exact Or.inl (Or.inr (.of_lex hlen h))
    · exact Or.inl (Or.inl h)
    · exact Or.inr (.of_lex hlen.symm h)
  · exact Or.inr (.of_length_lt hlen)

theorem shortlex_append_right {s t : List ℕ} (h : List.Shortlex (· < ·) s t) (u : List ℕ) :
    List.Shortlex (· < ·) (s ++ u) (t ++ u) := by
  rcases List.shortlex_def.mp h with hlen | ⟨hlen, hlex⟩
  · apply List.Shortlex.of_length_lt
    simpa using hlen
  · apply List.Shortlex.of_lex
    · simpa using hlen
    · exact lex_append hlen hlex

theorem ShortLe.of_append_right {s t u : List ℕ} (h : ShortLe (s ++ u) (t ++ u)) : ShortLe s t := by
  rcases shortLe_or_shortlex s t with hle | hlt
  · exact hle
  · have heq := h.antisymm (Or.inr (shortlex_append_right hlt u))
    exact Or.inl (List.append_cancel_right heq)

theorem ShortLe.of_append_left {s t u : List ℕ} (h : ShortLe (u ++ s) (u ++ t)) : ShortLe s t := by
  rcases shortLe_or_shortlex s t with hle | hlt
  · exact hle
  · have heq := h.antisymm (Or.inr (List.Shortlex.append_left hlt u))
    exact Or.inl (List.append_cancel_left heq)

/-! ### What the search keeps -/

section Search

variable {adj : V → List (V × L)} {key : L → ℕ} {root : V}

def keys (key : L → ℕ) (w : List (Link V L)) : List ℕ := w.map fun g => key g.label

theorem keys_snoc (w : List (Link V L)) (g : Link V L) :
    keys key (w ++ [g]) = keys key w ++ [key g.label] := by
  rw [keys, List.map_append]
  rfl

/-- The entries of `adj` that the search has looked at, and what it has found
there. -/
structure Examined (adj : V → List (V × L)) (key : L → ℕ) (root : V) (looked : List (V × V × L))
    (found : List (Link V L)) : Prop where
  nodup : (seen root found).Nodup
  atRoot : route found root = []
  links : ∀ g ∈ found, (g.parent, g.node, g.label) ∈ looked
  entries : ∀ e ∈ looked, e.2 ∈ adj e.1 ∧ e.1 ∈ seen root found ∧ e.2.1 ∈ seen root found
  walks : ∀ v ∈ seen root found, Walk adj root (route found v) v
  routes : ∀ g ∈ found, route found g.node = route found g.parent ++ [g]
  sorted : (seen root found).Pairwise fun u v =>
    List.Shortlex (· < ·) (keys key (route found u)) (keys key (route found v))
  least : ∀ e ∈ looked,
    ShortLe (keys key (route found e.2.1)) (keys key (route found e.1) ++ [key e.2.2])

theorem Examined.start (adj : V → List (V × L)) (key : L → ℕ) (root : V) :
    Examined adj key root [] [] where
  nodup := List.nodup_singleton root
  atRoot := rfl
  links := fun g hg => absurd hg List.not_mem_nil
  entries := fun e he => absurd he List.not_mem_nil
  walks := fun v hv => by
    rw [List.mem_singleton.mp hv]
    exact Walk.nil
  routes := fun g hg => absurd hg List.not_mem_nil
  sorted := List.pairwise_singleton _ root
  least := fun e he => absurd he List.not_mem_nil

/-- The route to `u`, then the edge. -/
def through (key : L → ℕ) (found : List (Link V L)) (e : V × V × L) : List ℕ :=
  keys key (route found e.1) ++ [key e.2.2]

/-- No entry looked at before comes after this one, and all come before it if
it leads to a new node. -/
def Later (key : L → ℕ) (root : V) (looked : List (V × V × L)) (found : List (Link V L))
    (e : V × V × L) : Prop :=
  ∀ e' ∈ looked, ShortLe (through key found e') (through key found e) ∧
    (e.2.1 ∉ seen root found →
      List.Shortlex (· < ·) (through key found e') (through key found e))

/-- The routes are bounded by the entry looked at next. -/
theorem Examined.route_le {looked : List (V × V × L)} {found : List (Link V L)}
    (h : Examined adj key root looked found) {e : V × V × L}
    (hlater : Later key root looked found e) {v : V} (hv : v ∈ seen root found) :
    ShortLe (keys key (route found v)) (through key found e) ∧
      (e.2.1 ∉ seen root found →
        List.Shortlex (· < ·) (keys key (route found v)) (through key found e)) := by
  rcases List.mem_cons.mp hv with rfl | hv
  · have hlt : List.Shortlex (· < ·) (keys key (route found v)) (through key found e) := by
      rw [h.atRoot]
      apply List.Shortlex.of_length_lt
      simp [keys, through]
    exact ⟨Or.inr hlt, fun _ => hlt⟩
  · obtain ⟨g, hg, rfl⟩ := List.mem_map.mp hv
    rw [h.routes g hg, keys_snoc]
    exact hlater _ (h.links g hg)

theorem Examined.visit {looked : List (V × V × L)} {s : State V L}
    (h : Examined adj key root looked s.1) {u : V} {p : V × L} (hp : p ∈ adj u)
    (hu : u ∈ seen root s.1) (hlater : Later key root looked s.1 (u, p)) :
    Examined adj key root (looked ++ [(u, p)]) (visit root u s p).1 := by
  unfold Bfs.visit
  split_ifs with hseen
  -- a node seen before: nothing is found, and this entry is no better than its route
  · refine ⟨h.nodup, h.atRoot, fun g hg => List.mem_append_left _ (h.links g hg), ?_, h.walks,
      h.routes, h.sorted, ?_⟩
    · intro e he
      rcases List.mem_append.mp he with he | he
      · exact h.entries e he
      · rw [List.mem_singleton.mp he]
        exact ⟨hp, hu, hseen⟩
    · intro e he
      rcases List.mem_append.mp he with he | he
      · exact h.least e he
      · rw [List.mem_singleton.mp he]
        exact (h.route_le hlater hseen).1
  · -- the new node's route is through this entry, and every other route is kept
    set g : Link V L := ⟨p.1, u, p.2⟩ with hg
    have hnew : route (s.1 ++ [g]) p.1 = route s.1 u ++ [g] := route_snoc_node
    have hold : ∀ {v}, v ∈ seen root s.1 → route (s.1 ++ [g]) v = route s.1 v :=
      fun hv => route_snoc_of_mem hseen hv
    refine ⟨?_, ?_, ?_, ?_, ?_, ?_, ?_, ?_⟩
    · rw [seen_snoc]
      exact List.nodup_append'.mpr ⟨h.nodup, List.nodup_singleton _, by simpa using hseen⟩
    · rw [hold root_mem_seen, h.atRoot]
    · intro g' hg'
      rcases List.mem_append.mp hg' with hg' | hg'
      · exact List.mem_append_left _ (h.links g' hg')
      · rw [List.mem_singleton.mp hg']
        exact List.mem_append_right _ (List.mem_singleton.mpr rfl)
    · intro e he
      rcases List.mem_append.mp he with he | he
      · obtain ⟨hadj, hfrom, hto⟩ := h.entries e he
        exact ⟨hadj, mem_seen_snoc.mpr (Or.inl hfrom), mem_seen_snoc.mpr (Or.inl hto)⟩
      · rw [List.mem_singleton.mp he]
        exact ⟨hp, mem_seen_snoc.mpr (Or.inl hu), mem_seen_snoc.mpr (Or.inr rfl)⟩
    · intro v hv
      rcases mem_seen_snoc.mp hv with hv | rfl
      · rw [hold hv]
        exact h.walks v hv
      · rw [show route (s.1 ++ [g]) g.node = route s.1 u ++ [g] from hnew]
        exact (h.walks u hu).snoc hp
    · intro g' hg'
      rcases List.mem_append.mp hg' with hg' | hg'
      · have hnode : g'.node ∈ seen root s.1 :=
          List.mem_cons_of_mem _ (List.mem_map_of_mem hg')
        have hparent : g'.parent ∈ seen root s.1 := (h.entries _ (h.links g' hg')).2.1
        rw [hold hnode, hold hparent, h.routes g' hg']
      · rw [List.mem_singleton.mp hg', hold (show g.parent ∈ seen root s.1 from hu)]
        exact hnew
    · rw [seen_snoc]
      refine List.pairwise_append.mpr ⟨?_, List.pairwise_singleton _ _, ?_⟩
      · refine h.sorted.imp_of_mem fun {v w} hv hw hlt => ?_
        rwa [hold hv, hold hw]
      · intro v hv w hw
        rw [List.mem_singleton.mp hw, hold hv,
          show route (s.1 ++ [g]) g.node = route s.1 u ++ [g] from hnew, keys_snoc]
        exact (h.route_le hlater hv).2 hseen
    · intro e he
      rcases List.mem_append.mp he with he | he
      · obtain ⟨-, hfrom, hto⟩ := h.entries e he
        rw [hold hfrom, hold hto]
        exact h.least e he
      · rw [List.mem_singleton.mp he, hold (show (u, p).1 ∈ seen root s.1 from hu), hnew, keys_snoc]
        exact Or.inl rfl

/-- A later state of the search: nothing found is lost. -/
structure Grows (root : V) (s s' : State V L) : Prop where
  appended : ∃ new, s'.1 = s.1 ++ new ∧ s'.2 = s.2 ++ new.map Link.node
  routes : ∀ v ∈ seen root s.1, route s'.1 v = route s.1 v

theorem Grows.refl (s : State V L) : Grows root s s :=
  ⟨⟨[], (List.append_nil _).symm, (List.append_nil _).symm⟩, fun _ _ => rfl⟩

theorem Grows.mem {s s' : State V L} (h : Grows root s s') {v : V} (hv : v ∈ seen root s.1) :
    v ∈ seen root s'.1 := by
  obtain ⟨new, hnew, -⟩ := h.appended
  rw [hnew, seen, List.map_append]
  exact List.mem_append_left _ hv

theorem Grows.trans {s s' s'' : State V L} (h : Grows root s s') (h' : Grows root s' s'') :
    Grows root s s'' := by
  obtain ⟨new, hfound, hqueue⟩ := h.appended
  obtain ⟨new', hfound', hqueue'⟩ := h'.appended
  refine ⟨⟨new ++ new', ?_, ?_⟩, fun v hv => ?_⟩
  · rw [hfound', hfound, List.append_assoc]
  · rw [hqueue', hqueue, List.map_append, List.append_assoc]
  · rw [h'.routes v (h.mem hv), h.routes v hv]

theorem grows_visit (root u : V) (s : State V L) (p : V × L) : Grows root s (visit root u s p) := by
  unfold visit
  split_ifs with hseen
  · exact Grows.refl s
  · exact ⟨⟨[⟨p.1, u, p.2⟩], rfl, rfl⟩, fun v hv => route_snoc_of_mem hseen hv⟩

/-- The neighbors are listed by increasing keys; only a node's edges to itself
may share one. -/
def Ordered (adj : V → List (V × L)) (key : L → ℕ) : Prop :=
  ∀ u, (adj u).Pairwise fun p q => key p.2 ≤ key q.2 ∧ (q.1 ≠ u → key p.2 < key q.2)

/-- The neighbors of `u` from `l` on. -/
theorem Examined.neighbors (hadj : Ordered adj key) {u : V} {base : List (V × V × L)} :
    ∀ {l b : List (V × L)} {s : State V L}, adj u = b ++ l →
      Examined adj key root (base ++ b.map (u, ·)) s.1 → u ∈ seen root s.1 →
      (∀ e ∈ base, List.Shortlex (· < ·) (keys key (route s.1 e.1)) (keys key (route s.1 u))) →
      Examined adj key root (base ++ (adj u).map (u, ·)) (l.foldl (Bfs.visit root u) s).1 ∧
        Grows root s (l.foldl (Bfs.visit root u) s)
  | [], b, s, hsplit, h, _, _ => by
      rw [hsplit, List.append_nil]
      exact ⟨h, Grows.refl s⟩
  | p :: l, b, s, hsplit, h, hu, hbase => by
      have hp : p ∈ adj u := hsplit ▸ List.mem_append_right _ List.mem_cons_self
      -- an entry looked at before is of a node with a lesser route, or of `u` with a lesser key
      have hlater : Later key root (base ++ b.map (u, ·)) s.1 (u, p) := by
        intro e he
        rcases List.mem_append.mp he with he | he
        · have hlt := shortlex_snoc (hbase e he) (key e.2.2) (key p.2)
          exact ⟨Or.inr hlt, fun _ => hlt⟩
        · obtain ⟨q, hq, rfl⟩ := List.mem_map.mp he
          obtain ⟨hle, hlt⟩ : key q.2 ≤ key p.2 ∧ (p.1 ≠ u → key q.2 < key p.2) := by
            have hpairs := hadj u
            rw [hsplit] at hpairs
            exact (List.pairwise_append.mp hpairs).2.2 q hq p List.mem_cons_self
          refine ⟨?_, fun hnew => shortlex_last _ (hlt fun heq => hnew (heq ▸ hu))⟩
          rcases hle.eq_or_lt with heq | hlt
          · left
            show keys key (route s.1 u) ++ [key q.2] = keys key (route s.1 u) ++ [key p.2]
            rw [heq]
          · exact Or.inr (shortlex_last _ hlt)
      have hgrows := grows_visit root u s p
      have hvisit := h.visit hp hu hlater
      rw [List.append_assoc, ← List.map_singleton (f := (u, ·)), ← List.map_append] at hvisit
      have hbase' : ∀ e ∈ base, List.Shortlex (· < ·)
          (keys key (route (Bfs.visit root u s p).1 e.1))
          (keys key (route (Bfs.visit root u s p).1 u)) := by
        intro e he
        rw [hgrows.routes u hu,
          hgrows.routes e.1 (h.entries e (List.mem_append_left _ he)).2.1]
        exact hbase e he
      obtain ⟨h', hgrows'⟩ := Examined.neighbors hadj (l := l) (b := b ++ [p])
        (by rw [hsplit, List.append_assoc]; rfl) hvisit (hgrows.mem hu) hbase'
      exact ⟨h', hgrows.trans hgrows'⟩

/-- Between two nodes of the queue: those taken from it have been looked at
with all their neighbors. -/
structure Running (adj : V → List (V × L)) (key : L → ℕ) (root : V) (done : List V)
    (s : State V L) : Prop where
  examined : Examined adj key root (done.flatMap fun u => (adj u).map (u, ·)) s.1
  queue : seen root s.1 = done ++ s.2

theorem Running.start (adj : V → List (V × L)) (key : L → ℕ) (root : V) :
    Running adj key root [] (start root) :=
  ⟨Examined.start adj key root, rfl⟩

theorem Running.step (hadj : Ordered adj key) {done queue : List V} {found : List (Link V L)}
    {node : V} (h : Running adj key root done (found, node :: queue)) :
    Running adj key root (done ++ [node])
      ((adj node).foldl (Bfs.visit root node) (found, queue)) := by
  have hsorted := h.examined.sorted
  rw [h.queue] at hsorted
  have hnode : node ∈ seen root found := by
    rw [h.queue]
    exact List.mem_append_right _ List.mem_cons_self
  have hbase : ∀ e ∈ done.flatMap fun u => (adj u).map (u, ·),
      List.Shortlex (· < ·) (keys key (route found e.1)) (keys key (route found node)) := by
    intro e he
    obtain ⟨u, hu, he⟩ := List.mem_flatMap.mp he
    obtain ⟨p, -, rfl⟩ := List.mem_map.mp he
    exact (List.pairwise_append.mp hsorted).2.2 u hu node List.mem_cons_self
  have hexamined : Examined adj key root
      ((done.flatMap fun u => (adj u).map (u, ·)) ++ ([] : List (V × L)).map (node, ·)) found := by
    rw [List.map_nil, List.append_nil]
    exact h.examined
  obtain ⟨h', hgrows⟩ := Examined.neighbors hadj (b := []) (s := (found, queue)) rfl hexamined
    hnode hbase
  refine ⟨?_, ?_⟩
  · rw [List.flatMap_append, List.flatMap_singleton]
    exact h'
  · obtain ⟨new, hfound, hqueue⟩ := hgrows.appended
    rw [hfound, hqueue, seen, List.map_append, ← List.cons_append]
    show seen root found ++ _ = _
    rw [h.queue]
    simp

/-- Where a search stands when it is over: at a node with `stop`, with an empty
queue, or out of fuel. -/
theorem Running.search (hadj : Ordered adj key) (stop : V → Bool) : ∀ (k : ℕ) {done : List V}
    {s : State V L}, Running adj key root done s → ∃ done' queue,
      Running adj key root done' ((search adj root stop k s).1, queue) ∧
        (queue = [] ∨ (∃ v ∈ queue.head?, stop v) ∨ done'.length = done.length + k)
  | 0, done, s, h => ⟨done, s.2, h, Or.inr (Or.inr rfl)⟩
  | k + 1, done, (found, []), h => ⟨done, [], h, Or.inl rfl⟩
  | k + 1, done, (found, node :: queue), h => by
      by_cases hstop : stop node
      · refine ⟨done, node :: queue, ?_, Or.inr (Or.inl ⟨node, rfl, hstop⟩)⟩
        simp only [Bfs.search, hstop, if_true]
        exact h
      · obtain ⟨done', queue', hrunning, hover⟩ := Running.search hadj stop k (h.step hadj)
        refine ⟨done', queue', ?_, ?_⟩
        · simp only [Bfs.search, hstop]
          exact hrunning
        · rw [List.length_append, List.length_singleton] at hover
          rcases hover with hover | hover | hover
          · exact Or.inl hover
          · exact Or.inr (Or.inl hover)
          · exact Or.inr (Or.inr (by omega))

/-- Every walk is bounded by a route: to its end, or to the next node of the
queue. -/
theorem Running.walk {done : List V} {s : State V L} (h : Running adj key root done s)
    {w : List (Link V L)} {v : V} (hw : Walk adj root w v) :
    (v ∈ seen root s.1 ∧ ShortLe (keys key (route s.1 v)) (keys key w)) ∨
      ∃ b ∈ s.2.head?, ShortLe (keys key (route s.1 b)) (keys key w) := by
  induction hw with
  | nil =>
      left
      refine ⟨root_mem_seen, ?_⟩
      rw [h.examined.atRoot]
      exact Or.inl rfl
  | @snoc w u p hw hp ih =>
      have hlonger : ShortLe (keys key w) (keys key (w ++ [⟨p.1, u, p.2⟩])) := by
        right
        apply List.Shortlex.of_length_lt
        simp [keys]
      rcases ih with ⟨hu, hle⟩ | ⟨b, hb, hle⟩
      · rw [h.queue] at hu
        rcases List.mem_append.mp hu with hu | hu
        · have hlooked : (u, p) ∈ done.flatMap fun u => (adj u).map (u, ·) :=
            List.mem_flatMap.mpr ⟨u, hu, List.mem_map_of_mem hp⟩
          left
          refine ⟨(h.examined.entries _ hlooked).2.2, ?_⟩
          rw [keys_snoc]
          exact (h.examined.least _ hlooked).trans (hle.snoc _)
        · -- `u` waits in the queue
          right
          rcases hqueue : s.2 with _ | ⟨b, queue⟩
          · rw [hqueue] at hu
            cases hu
          · refine ⟨b, rfl, ShortLe.trans ?_ (hle.trans hlonger)⟩
            have hsorted := h.examined.sorted
            rw [h.queue, hqueue] at hsorted
            rw [hqueue] at hu
            rcases List.mem_cons.mp hu with rfl | hu
            · exact Or.inl rfl
            · exact Or.inr (List.rel_of_pairwise_cons (List.pairwise_append.mp hsorted).2.1 hu)
      · exact Or.inr ⟨b, hb, hle.trans hlonger⟩

/-! ### What the search finds -/

section Universe

variable {U : List V}

/-- A search does not leave what its root cannot leave. -/
theorem Running.subset (hroot : root ∈ U) (hU : ∀ u ∈ U, ∀ p ∈ adj u, p.1 ∈ U) {done : List V}
    {s : State V L} (h : Running adj key root done s) : seen root s.1 ⊆ U := by
  intro v hv
  have hw := h.examined.walks v hv
  generalize route s.1 v = w at hw
  clear hv
  induction hw with
  | nil => exact hroot
  | snoc _ hp ih => exact hU _ ih _ hp

/-- Every node is taken from the queue at most once. -/
theorem Running.length_le (hroot : root ∈ U) (hU : ∀ u ∈ U, ∀ p ∈ adj u, p.1 ∈ U) {done : List V}
    {s : State V L} (h : Running adj key root done s) : done.length + s.2.length ≤ U.length := by
  rw [← List.length_append, ← h.queue]
  exact (List.subperm_of_subset h.examined.nodup (h.subset hroot hU)).length_le

/-- A node waits in the queue only where the search was stopped. -/
theorem search_over (hadj : Ordered adj key) (hroot : root ∈ U)
    (hU : ∀ u ∈ U, ∀ p ∈ adj u, p.1 ∈ U) (stop : V → Bool) : ∃ done queue,
      Running adj key root done ((search adj root stop U.length (start root)).1, queue) ∧
        ∀ v ∈ queue.head?, stop v := by
  obtain ⟨done, queue, h, hover⟩ :=
    Running.search hadj stop U.length (Running.start adj key root)
  refine ⟨done, queue, h, ?_⟩
  rcases hover with rfl | ⟨v, hv, hstop⟩ | hlen
  · intro v hv
    cases hv
  · intro v' hv'
    rwa [Option.mem_unique hv' hv]
  · have hle : done.length + queue.length ≤ U.length := h.length_le hroot hU
    rw [hlen, List.length_nil] at hle
    obtain rfl : queue = [] := List.eq_nil_of_length_eq_zero (by omega)
    intro v hv
    cases hv

/-- **Completeness**: a search that is not stopped finds what a walk leads to. -/
theorem search_complete (hadj : Ordered adj key) (hroot : root ∈ U)
    (hU : ∀ u ∈ U, ∀ p ∈ adj u, p.1 ∈ U) {w : List (Link V L)} {v : V} (hw : Walk adj root w v) :
    v ∈ seen root (search adj root (fun _ => false) U.length (start root)).1 := by
  obtain ⟨done, queue, h, hstop⟩ := search_over hadj hroot hU fun _ => false
  rcases h.walk hw with ⟨hv, -⟩ | ⟨b, hb, -⟩
  · exact hv
  · exact absurd (hstop b hb) Bool.false_ne_true

/-- **The route of a search for a node** is a walk to it, and comes before every
other one. -/
theorem search_route (hadj : Ordered adj key) (hroot : root ∈ U)
    (hU : ∀ u ∈ U, ∀ p ∈ adj u, p.1 ∈ U) {v : V} (hv : ∃ w, Walk adj root w v) :
    ∃ looked, Examined adj key root looked
        (search adj root (fun n => n = v) U.length (start root)).1 ∧
      v ∈ seen root (search adj root (fun n => n = v) U.length (start root)).1 ∧
      ∀ w, Walk adj root w v → ShortLe
        (keys key (route (search adj root (fun n => n = v) U.length (start root)).1 v))
        (keys key w) := by
  obtain ⟨done, queue, h, hstop⟩ := search_over hadj hroot hU fun n => n = v
  set found := (search adj root (fun n => n = v) U.length (start root)).1
  have hbound : ∀ w, Walk adj root w v →
      v ∈ seen root found ∧ ShortLe (keys key (route found v)) (keys key w) := by
    intro w hw
    rcases h.walk hw with hle | ⟨b, hb, hle⟩
    · exact hle
    · obtain rfl : b = v := of_decide_eq_true (hstop b hb)
      refine ⟨?_, hle⟩
      rw [h.queue]
      exact List.mem_append_right _ (List.mem_of_mem_head? hb)
  obtain ⟨w, hw⟩ := hv
  exact ⟨_, h.examined, (hbound w hw).1, fun w hw => (hbound w hw).2⟩

end Universe

/-! ### Reading a route back -/

/-- From `v` on along the parents, of at most `k` links. -/
def climb (root : V) (found : List (Link V L)) : ℕ → V → List (Link V L)
  | 0, _ => []
  | k + 1, v =>
      if v = root then []
      else
        match found.find? fun g => g.node = v with
        | none => []
        | some g => g :: climb root found k g.parent

theorem length_route_le (found : List (Link V L)) : ∀ v, (route found v).length ≤ found.length := by
  induction found using List.reverseRecOn with
  | nil => exact fun _ => Nat.le_refl 0
  | append_singleton found g ih =>
      intro v
      rw [route_snoc, List.length_append, List.length_singleton]
      by_cases hv : v = g.node
      · rw [hv, Function.update_self, List.length_append, List.length_singleton]
        have hparent := ih g.parent
        omega
      · rw [Function.update_of_ne hv]
        have hold := ih v
        omega

theorem Examined.find?_node {looked : List (V × V × L)} {found : List (Link V L)}
    (h : Examined adj key root looked found) {g : Link V L} (hg : g ∈ found) :
    (found.find? fun g' => g'.node = g.node) = some g := by
  obtain ⟨g', hg'⟩ := Option.isSome_iff_exists.mp
    (List.find?_isSome (p := fun g' => decide (g'.node = g.node)).mpr ⟨g, hg, by simp⟩)
  have hnode : g'.node = g.node := by
    simpa using List.find?_some hg'
  have hnodup : (found.map Link.node).Nodup := (List.nodup_cons.mp h.nodup).2
  rw [hg', List.inj_on_of_nodup_map hnodup (List.mem_of_find?_eq_some hg') hg hnode]

theorem Examined.climb {looked : List (V × V × L)} {found : List (Link V L)}
    (h : Examined adj key root looked found) : ∀ (k : ℕ) {v : V}, v ∈ seen root found →
      (route found v).length ≤ k → Bfs.climb root found k v = (route found v).reverse
  | 0, v, _, hk => by
      rw [List.eq_nil_of_length_eq_zero (Nat.le_zero.mp hk)]
      rfl
  | k + 1, v, hv, hk => by
      rw [Bfs.climb]
      split_ifs with hroot
      · rw [hroot, h.atRoot]
        rfl
      · obtain ⟨g, hg, rfl⟩ := List.mem_map.mp ((List.mem_cons.mp hv).resolve_left hroot)
        have hparent : g.parent ∈ seen root found := (h.entries _ (h.links g hg)).2.1
        rw [h.routes g hg, List.length_append, List.length_singleton] at hk
        rw [h.find?_node hg, h.routes g hg, List.reverse_append]
        show g :: Bfs.climb root found k g.parent = _
        rw [h.climb k hparent (by omega)]
        rfl

end Search

end Bfs
