import OpNet.Proofs.Boundary
import OpNet.Proofs.CanonicalOrder

/-!
The blob edges of an exported net. A rewritten graph carries its edges along from replacement to
replacement; the graph of the exported net scans the operators for last writers anew. Main
statement: when disjoint sets of operators are replaced by their boundaries, one after another, and
the result can be exported, the two have the same edges.
-/
namespace OpNet.Net
open OpNet.Graph

namespace Collapsed
variable {net out : Net} {groups : List Group} {g : Graph} {order : List Nat} {i m w x y p q : Nat}
  {blob : String} {unit : Group}

section
variable (ok : g.topologicalOrder = .ok order)
include ok

theorem orderHome (c : Collapsed net groups g) (bound : i < net.ops.length) :
    net.home (groups.map Group.members) i ∈ order :=
  ((c.mirrored.executionOrder ok).active _).mpr (c.activeHome bound)

theorem indexed (c : Collapsed net groups g) (at_ : order[p]? = some x) : order.idxOf x = p := by
  obtain ⟨inside, rfl⟩ := List.getElem?_eq_some_iff.mp at_
  exact (c.mirrored.executionOrder ok).nodup.idxOf_getElem p inside

theorem placedAhead (c : Collapsed net groups g)
    (hp : order[p]? = some (net.home (groups.map Group.members) i))
    (hq : order[q]? = some (net.home (groups.map Group.members) m)) (less : i < m)
    (conflict : net.Conflict i m) (apart : p ≠ q) : p < q := by
  have placeP := c.indexed ok hp
  have placeQ := c.indexed ok hq
  have ahead := c.conflictAhead ok less conflict fun same => apart (by rw [← placeP, same, placeQ])
  rwa [placeP, placeQ] at ahead

section
variable (exported : g.toNet = .ok out)
include exported

theorem exportedOps (c : Collapsed net groups g) :
    out.ops.map some = order.map fun x => ((net.units groups)[x]?).map Group.op := by
  have active := (c.mirrored.executionOrder ok).active
  rw [toNetOfOrder ok] at exported
  have ops := congrArg Net.ops (Except.ok.inj exported)
  rw [← ops, operatorsOfActive fun x mem => (active x).mp mem]
  exact List.map_congr_left fun x _ => by rw [c.op, ← unitsOp, List.getElem?_map]

theorem exportedLength (c : Collapsed net groups g) : order.length = out.ops.length := by
  have same := congrArg List.length (c.exportedOps ok exported)
  rwa [List.length_map, List.length_map, eq_comm] at same

theorem placed (c : Collapsed net groups g) (at_ : order[p]? = some x) :
    ∃ unit, (net.units groups)[x]? = some unit ∧ out.ops[p]? = some unit.op ∧
      g.isActive x = true := by
  have active := ((c.mirrored.executionOrder ok).active x).mp (List.mem_of_getElem? at_)
  obtain ⟨unit, found⟩ := c.unitAt active
  have same := congrArg (·[p]?) (c.exportedOps ok exported)
  simp only [List.getElem?_map, at_, found, Option.map_some, Option.map_eq_some_iff,
    Option.some.injEq, exists_eq_right] at same
  exact ⟨unit, found, same, active⟩

theorem atPlace (c : Collapsed net groups g) (inside : p < out.ops.length) :
    ∃ x, order[p]? = some x := by
  rw [← c.exportedLength ok exported] at inside
  exact ⟨_, List.getElem?_eq_getElem inside⟩

theorem writerAt (c : Collapsed net groups g) (writes : out.Writes p blob) :
    ∃ w, order[p]? = some (net.home (groups.map Group.members) w) ∧ net.Writes w blob := by
  obtain ⟨x, at_⟩ := c.atPlace ok exported writes.inRange
  obtain ⟨unit, found, op, active⟩ := c.placed ok exported at_
  obtain ⟨w, mem, hit⟩ := (c.unitCovers found).1.written blob ((writesIff op).mp writes)
  obtain ⟨_, rfl⟩ := (c.memUnit active found).mp mem
  exact ⟨w, at_, hit⟩

theorem readerAt (c : Collapsed net groups g) (reads : out.Reads q blob) :
    ∃ m, order[q]? = some (net.home (groups.map Group.members) m) ∧ net.Reads m blob ∧
      ∀ w, net.LastWriter blob w m →
        net.home (groups.map Group.members) w ≠ net.home (groups.map Group.members) m := by
  obtain ⟨y, at_⟩ := c.atPlace ok exported reads.inRange
  obtain ⟨unit, found, op, active⟩ := c.placed ok exported at_
  obtain ⟨m, mem, hit, none⟩ := (c.unitCovers found).1.needed blob ((readsIff op).mp reads)
  obtain ⟨_, rfl⟩ := (c.memUnit active found).mp mem
  refine ⟨m, at_, hit, fun w last same => none w ?_ last⟩
  exact (c.memUnit active found).mpr ⟨last.2.1.inRange, same⟩

theorem lastWriterExported (c : Collapsed net groups g) (reads : net.Reads m blob)
    (last : net.LastWriter blob i m)
    (apart : net.home (groups.map Group.members) i ≠ net.home (groups.map Group.members) m)
    (hp : order[p]? = some (net.home (groups.map Group.members) i))
    (hq : order[q]? = some (net.home (groups.map Group.members) m)) :
    out.Reads q blob ∧ out.LastWriter blob p q := by
  obtain ⟨less, writes, none⟩ := last
  obtain ⟨source, foundP, opP, activeP⟩ := c.placed ok exported hp
  obtain ⟨reader, foundQ, opQ, activeQ⟩ := c.placed ok exported hq
  have memI := (c.memUnit activeP foundP).mpr ⟨writes.inRange, rfl⟩
  have memM := (c.memUnit activeQ foundQ).mpr ⟨reads.inRange, rfl⟩
  have enters : blob ∈ reader.op.inputs := by
    refine (c.unitCovers foundQ).1.entering m memM blob reads fun w mem inner => apart ?_
    rw [LastWriter.unique ⟨less, writes, none⟩ inner]
    exact ((c.memUnit activeQ foundQ).mp mem).2
  have leaves : blob ∈ source.op.outputs := by
    refine (c.unitCovers foundP).1.leaving i memI m blob (fun mem => apart ?_) reads
      ⟨less, writes, none⟩
    exact ((c.memUnit activeP foundP).mp mem).2.symm
  have places : p ≠ q := fun same => apart (Option.some.inj (hp.symm.trans (same ▸ hq)))
  have ahead := c.placedAhead ok hp hq less ⟨blob, Or.inl ⟨writes, Or.inl reads⟩⟩ places
  refine ⟨(readsIff opQ).mpr enters, ahead, (writesIff opP).mpr leaves, fun k low high hit => ?_⟩
  -- Another writer runs before both homes or after both of them.
  obtain ⟨w, hk, other⟩ := c.writerAt ok exported hit
  rcases Nat.lt_trichotomy w i with before | rfl | after
  · have := c.placedAhead ok hk hp before ⟨blob, Or.inl ⟨other, Or.inr writes⟩⟩ (by omega)
    omega
  · have := (c.indexed ok hp).symm.trans (c.indexed ok hk)
    omega
  · rcases Nat.lt_trichotomy w m with between | rfl | beyond
    · exact none w after between other
    · have := (c.indexed ok hq).symm.trans (c.indexed ok hk)
      omega
    · have := c.placedAhead ok hq hk beyond ⟨blob, Or.inr ⟨reads, other⟩⟩ (by omega)
      omega

theorem exportedEdges (c : Collapsed net groups g) (p q : Nat) (blob : String) :
    ⟨p, blob⟩ ∈ (ofNet out).parents q ↔
      ∃ x y, order[p]? = some x ∧ order[q]? = some y ∧ ⟨x, blob⟩ ∈ g.parents y := by
  rw [memParentsOfNet]
  constructor
  · intro h
    obtain ⟨reads, last⟩ := h
    obtain ⟨w, hp, writes⟩ := c.writerAt ok exported last.2.1
    obtain ⟨m, hq, here, foreign⟩ := c.readerAt ok exported reads
    have less := last.1
    have before : w < m := by
      rcases Nat.lt_trichotomy w m with before | rfl | after
      · exact before
      · have := (c.indexed ok hp).symm.trans (c.indexed ok hq)
        omega
      · have := c.placedAhead ok hq hp after ⟨blob, Or.inr ⟨here, writes⟩⟩ (by omega)
        omega
    -- The member that was read from need not be `w`, but it has the same home.
    obtain ⟨i, _, origin⟩ := existsLastWriter before writes
    have apart := foreign i origin
    obtain ⟨k, hk⟩ := List.mem_iff_getElem?.mp (c.orderHome ok origin.2.1.inRange)
    have source := (c.lastWriterExported ok exported here origin apart hk hq).2
    have same := LastWriter.unique last source
    subst same
    have activeX := c.activeHome origin.2.1.inRange
    have activeY := c.activeHome here.inRange
    exact ⟨_, _, hk, hq, (c.links blob _ _ activeX activeY).mpr
      ⟨apart, i, m, rfl, rfl, memParentsOfNet.mpr ⟨here, origin⟩⟩⟩
  · intro h
    obtain ⟨x, y, hp, hq, edge⟩ := h
    obtain ⟨_, _, _, activeX⟩ := c.placed ok exported hp
    obtain ⟨_, _, _, activeY⟩ := c.placed ok exported hq
    obtain ⟨apart, i, m, rfl, rfl, origin⟩ := (c.links blob x y activeX activeY).mp edge
    obtain ⟨reads, last⟩ := memParentsOfNet.mp origin
    exact c.lastWriterExported ok exported reads last apart hp hq

end

end

end Collapsed

theorem Collapsed.replaceBoundaries {net : Net} {groups : List Group} {g : Graph}
    (c : Collapsed net groups g) (items : List (List Nat × Operator))
    (separate : net.Separate
      (groups.map Group.members ++ items.map fun item => Ascending.ofList item.1)) :
    ∃ added last standing, g.replaceEach Prod.fst boundaryOperator items = .ok (last, standing) ∧
      Collapsed net (groups ++ added) last := by
  have same : ∀ item : List Nat × Operator, ∀ i, i ∈ item.1 ↔ i ∈ Ascending.ofList item.1 :=
    fun item i => Ascending.memOfList.symm
  obtain ⟨added, last, standing, ok, _, collapsed, _⟩ :=
    c.replaceEach boundaryOperator items (fun item _ => same item) separate
      fun item _ groups g now apart => by
        have inside : ∀ i ∈ item.1, i < g.size := fun i mem =>
          activeInRange (activeMember apart now ((same item i).mp mem))
        exact ⟨_, boundaryOperatorOk inside, coversBoundary apart now (same item) item.2⟩
  exact ⟨added, last, standing, ok, collapsed⟩

theorem rebuiltEdges (net : Net) (items : List (List Nat × Operator))
    (inRange : ∀ item ∈ items, ∀ i ∈ item.1, i < net.ops.length)
    (disjoint : items.Pairwise fun a b => ∀ i ∈ a.1, i ∉ b.1) :
    ∃ g standing,
      (ofNet net).replaceEach Prod.fst boundaryOperator items = .ok (g, standing) ∧
      ∀ out, g.toNet = .ok out →
        ∃ order, g.topologicalOrder = .ok order ∧ order.length = out.ops.length ∧
          ∀ p q blob, ⟨p, blob⟩ ∈ (ofNet out).parents q ↔
            ∃ x y, order[p]? = some x ∧ order[q]? = some y ∧ ⟨x, blob⟩ ∈ g.parents y := by
  obtain ⟨groups, g, standing, ok, collapsed⟩ :=
    (collapsedOfNet net).replaceBoundaries items (separateItems inRange disjoint)
  refine ⟨g, standing, ok, fun out exported => ?_⟩
  obtain ⟨order, found, _⟩ := toNetOk exported
  exact ⟨order, found, collapsed.exportedLength found exported,
    collapsed.exportedEdges found exported⟩

def refilled : Net where
  ops :=
    [{ kind := "Load", outputs := ["A"] },
     { kind := "Conv", inputs := ["A"], outputs := ["B"] },
     { kind := "Relu", inputs := ["B"], outputs := ["C"] },
     { kind := "Scale", inputs := ["B"], outputs := ["A"] },
     { kind := "Sum", inputs := ["C", "A"], outputs := ["D"] }]
  externalOutputs := ["D"]

theorem refilledEdges :
    let items : List (List Nat × Operator) :=
      [([2, 1], { kind := "First" }), ([4, 3], { kind := "Second" })]
    ∃ g standing out,
      (ofNet refilled).replaceEach Prod.fst boundaryOperator items = .ok (g, standing) ∧
      g.toNet = .ok out ∧ out.ops.length = 3 ∧
        ∃ order, g.topologicalOrder = .ok order ∧ order.length = out.ops.length ∧
          ∀ p q blob, ⟨p, blob⟩ ∈ (ofNet out).parents q ↔
            ∃ x y, order[p]? = some x ∧ order[q]? = some y ∧ ⟨x, blob⟩ ∈ g.parents y := by
  intro items
  obtain ⟨g, standing, ok, all⟩ := rebuiltEdges refilled items (by decide) (by decide)
  have exported : ∃ out, ((ofNet refilled).replaceEach Prod.fst boundaryOperator items >>=
      fun result => result.1.toNet) = .ok out ∧ out.ops.length = 3 := ⟨_, rfl, rfl⟩
  rw [ok] at exported
  obtain ⟨out, written, three⟩ := exported
  exact ⟨g, standing, out, ok, written, three, all out written⟩

end OpNet.Net
