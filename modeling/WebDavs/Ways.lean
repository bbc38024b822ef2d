/-
Ways through a graph whose edges have names.

From every vertex a name leads to one vertex or to none. A way is a list of
names that can be followed one after the other. `Loopless` says that no way comes
back to where it has been, and then the ways through finitely many vertices are
bounded in length (`along_length_lt`). `Single` says of the edges that no vertex is
entered twice, and `single_iff_along` that this is the same as every vertex having at
most one way to it.
-/
import Mathlib.Data.List.Perm.Subperm
import Mathlib.Data.List.Nodup
import Mathlib.Data.List.Range

set_option autoImplicit false

namespace WebDavs.Ways

variable {V N : Type}

/-- Where a way leads from `v`. -/
def along (next : V → N → Option V) : V → List N → Option V
  | v, [] => some v
  | v, n :: ns => (next v n).bind fun w => along next w ns

variable {next : V → N → Option V} {v w : V}

@[simp] theorem along_nil : along next v [] = some v := rfl

theorem along_cons {n : N} {ns : List N} :
    along next v (n :: ns) = some w ↔ ∃ u, next v n = some u ∧ along next u ns = some w := by
  rw [along, Option.bind_eq_some_iff]

theorem along_append {ns ms : List N} :
    along next v (ns ++ ms) = some w ↔
      ∃ u, along next v ns = some u ∧ along next u ms = some w := by
  induction ns generalizing v with
  | nil => simp
  | cons n ns ih =>
      rw [List.cons_append, along_cons]
      constructor
      · rintro ⟨x, hx, hrest⟩
        obtain ⟨u, hu, hms⟩ := ih.mp hrest
        exact ⟨u, along_cons.mpr ⟨x, hx, hu⟩, hms⟩
      · rintro ⟨u, hu, hms⟩
        obtain ⟨x, hx, hrest⟩ := along_cons.mp hu
        exact ⟨x, hx, ih.mpr ⟨u, hrest, hms⟩⟩

theorem along_concat {ns : List N} {n : N} :
    along next v (ns ++ [n]) = some w ↔ ∃ u, along next v ns = some u ∧ next u n = some w := by
  rw [along_append]
  simp only [along_cons, along_nil, Option.some.injEq, exists_eq_right]

/-- A way can be followed as far as one likes. -/
theorem along_take {ns : List N} (h : along next v ns = some w) (i : Nat) :
    ∃ u, along next v (ns.take i) = some u ∧ along next u (ns.drop i) = some w := by
  rw [← List.take_append_drop i ns] at h
  exact along_append.mp h

/-! ## Loops -/

/-- No way from `v` comes back to where it has been. -/
def Loopless (next : V → N → Option V) (v : V) : Prop :=
  ∀ ns ms w, along next v ns = some w → along next v (ns ++ ms) = some w → ms = []

theorem Loopless.step {n : N} (h : Loopless next v) (hn : next v n = some w) :
    Loopless next w := by
  intro ns ms u hu hms
  refine h (n :: ns) ms u (along_cons.mpr ⟨w, hn, hu⟩) ?_
  rw [List.cons_append]
  exact along_cons.mpr ⟨w, hn, hms⟩

/-- **The length of ways.** A way without loops meets no vertex twice. -/
theorem along_length_lt {vs : List V} {ns : List N} (h : Loopless next v)
    (hvs : ∀ ms u, along next v ms = some u → u ∈ vs) (hns : along next v ns = some w) :
    ns.length < vs.length := by
  -- the vertices on the way, by how many names lead to them
  let stops : List (Option V) := (List.range (ns.length + 1)).map fun i => along next v (ns.take i)
  have hstop : ∀ i, ∃ u, along next v (ns.take i) = some u := by
    intro i
    obtain ⟨u, hu, -⟩ := along_take hns i
    exact ⟨u, hu⟩
  have hinj : ∀ i j, i < j → j ≤ ns.length →
      along next v (ns.take i) ≠ along next v (ns.take j) := by
    intro i j hij hj heq
    obtain ⟨u, hu⟩ := hstop i
    have hsplit : ns.take j = ns.take i ++ (ns.take j).drop i := by
      have htake := List.take_append_drop i (ns.take j)
      rw [List.take_take, Nat.min_eq_left (Nat.le_of_lt hij)] at htake
      exact htake.symm
    have hback : along next v (ns.take i ++ (ns.take j).drop i) = some u := by
      rw [← hsplit, ← heq, hu]
    have hnil := congrArg List.length (h _ _ _ hu hback)
    rw [List.length_drop, List.length_take, List.length_nil] at hnil
    omega
  have hnodup : stops.Nodup := by
    refine List.pairwise_map.mpr ?_
    refine List.pairwise_lt_range.imp_of_mem ?_
    intro i j _ hj hij
    rw [List.mem_range] at hj
    exact hinj i j hij (by omega)
  have hsub : stops ⊆ vs.map some := by
    intro o ho
    obtain ⟨i, -, rfl⟩ := List.mem_map.mp ho
    obtain ⟨u, hu⟩ := hstop i
    rw [hu]
    exact List.mem_map_of_mem (hvs _ _ hu)
  have hle := (List.Nodup.subperm hnodup hsub).length_le
  simp only [stops, List.length_map, List.length_range] at hle
  omega

/-! ## Vertices entered once -/

/-- Of all the vertices that can be reached from `v`, none is entered twice, and `v` is
not entered at all. -/
structure Single (next : V → N → Option V) (v : V) : Prop where
  once : ∀ ns ms u u' n n' w, along next v ns = some u → along next v ms = some u' →
    next u n = some w → next u' n' = some w → u = u' ∧ n = n'
  start : ∀ ns u n, along next v ns = some u → next u n ≠ some v

/-- **One way to each vertex.** -/
theorem single_iff_along : Single next v ↔
    ∀ ns ms w, along next v ns = some w → along next v ms = some w → ns = ms := by
  constructor
  · intro h ns ms w hns hms
    induction ns using List.reverseRecOn generalizing ms w with
    | nil =>
        cases hns
        rcases List.eq_nil_or_concat ms with rfl | ⟨ms, m, rfl⟩
        · rfl
        · rw [List.concat_eq_append] at hms
          obtain ⟨u, hu, hm⟩ := along_concat.mp hms
          exact absurd hm (h.start _ _ _ hu)
    | append_singleton ns n ih =>
        obtain ⟨u, hu, hn⟩ := along_concat.mp hns
        rcases List.eq_nil_or_concat ms with rfl | ⟨ms, m, rfl⟩
        · cases hms
          exact absurd hn (h.start _ _ _ hu)
        · rw [List.concat_eq_append] at hms ⊢
          obtain ⟨u', hu', hm⟩ := along_concat.mp hms
          obtain ⟨rfl, rfl⟩ := h.once _ _ _ _ _ _ _ hu hu' hn hm
          rw [ih _ _ hu hu']
  · intro h
    refine ⟨?_, ?_⟩
    · intro ns ms u u' n n' w hns hms hn hn'
      have heq := h _ _ _ (along_concat.mpr ⟨u, hns, hn⟩) (along_concat.mpr ⟨u', hms, hn'⟩)
      obtain ⟨rfl, hsingle⟩ := List.append_inj' heq rfl
      rw [hns] at hms
      exact ⟨Option.some.inj hms, (List.cons_eq_cons.mp hsingle).1⟩
    · intro ns u n hns hn
      have heq := h _ _ _ (along_concat.mpr ⟨u, hns, hn⟩) along_nil
      simp at heq

theorem Single.loopless (h : Single next v) : Loopless next v := by
  intro ns ms w hns hms
  have heq := single_iff_along.mp h _ _ _ hns hms
  have hlen := congrArg List.length heq
  rw [List.length_append] at hlen
  exact List.length_eq_zero_iff.mp (by omega)

end WebDavs.Ways
