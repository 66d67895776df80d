import OpNet.Graph.OfNet
import OpNet.Proofs.Adjacency

/-!
The graph of a net, read off the net itself. Main statements: `w` is a parent of `i` via a blob
exactly when `i` reads the blob and `w` is the last to write it before `i`; and `i` runs after `j`
exactly when `i` writes a blob that `j` was the last to write, or that `j` has read since it was
last written.
-/
namespace OpNet

namespace Net
variable (net : Net)

def Reads (i : Nat) (blob : String) : Prop := ∃ op, net.ops[i]? = some op ∧ blob ∈ op.inputs

def Writes (i : Nat) (blob : String) : Prop := ∃ op, net.ops[i]? = some op ∧ blob ∈ op.outputs

def LastWriter (blob : String) (w i : Nat) : Prop :=
  w < i ∧ net.Writes w blob ∧ ∀ k, w < k → k < i → ¬ net.Writes k blob

/-- `r` reads `blob` before `i`, and what it reads is not overwritten before `i`. -/
def ReaderSince (blob : String) (r i : Nat) : Prop :=
  r < i ∧ net.Reads r blob ∧ ∀ k, r ≤ k → k < i → ¬ net.Writes k blob

def inputsAt (i : Nat) : List String := (net.ops[i]?).elim [] Operator.inputs

def outputsAt (i : Nat) : List String := (net.ops[i]?).elim [] Operator.outputs

variable {net} {blob : String} {i w v r : Nat} {op : Operator}

theorem memInputsAt : blob ∈ net.inputsAt i ↔ net.Reads i blob := by
  unfold inputsAt Reads
  cases net.ops[i]? <;> simp

theorem memOutputsAt : blob ∈ net.outputsAt i ↔ net.Writes i blob := by
  unfold outputsAt Writes
  cases net.ops[i]? <;> simp

instance : Decidable (net.Reads i blob) := decidable_of_iff _ memInputsAt

instance : Decidable (net.Writes i blob) := decidable_of_iff _ memOutputsAt

instance : Decidable (net.LastWriter blob w i) :=
  decidable_of_iff (w < i ∧ net.Writes w blob ∧ ∀ k < i, w < k → ¬ net.Writes k blob)
    ⟨fun ⟨less, writes, quiet⟩ => ⟨less, writes, fun k later bound => quiet k bound later⟩,
      fun ⟨less, writes, quiet⟩ => ⟨less, writes, fun k bound later => quiet k later bound⟩⟩

theorem Reads.inRange (reads : net.Reads i blob) : i < net.ops.length := by
  obtain ⟨op, here, _⟩ := reads
  exact (List.getElem?_eq_some_iff.mp here).1

theorem Writes.inRange (writes : net.Writes i blob) : i < net.ops.length := by
  obtain ⟨op, here, _⟩ := writes
  exact (List.getElem?_eq_some_iff.mp here).1

theorem readsIff (here : net.ops[i]? = some op) : net.Reads i blob ↔ blob ∈ op.inputs := by
  simp [Reads, here]

theorem writesIff (here : net.ops[i]? = some op) : net.Writes i blob ↔ blob ∈ op.outputs := by
  simp [Writes, here]

theorem LastWriter.unique (left : net.LastWriter blob w i) (right : net.LastWriter blob v i) :
    w = v := by
  obtain ⟨wi, writesW, afterW⟩ := left
  obtain ⟨vi, writesV, afterV⟩ := right
  rcases Nat.lt_trichotomy w v with less | same | greater
  · exact absurd writesV (afterW v less vi)
  · exact same
  · exact absurd writesW (afterV w greater wi)

theorem lastWriterSucc :
    net.LastWriter blob w (i + 1) ↔
      (net.Writes i blob ∧ w = i) ∨ (¬ net.Writes i blob ∧ net.LastWriter blob w i) := by
  constructor
  · intro h
    obtain ⟨bound, writes, none⟩ := h
    by_cases same : w = i
    · subst same
      exact Or.inl ⟨writes, rfl⟩
    · exact Or.inr ⟨none i (by omega) (by omega), by omega, writes,
        fun k low high => none k low (by omega)⟩
  · intro h
    rcases h with ⟨writes, rfl⟩ | ⟨quiet, bound, writes, none⟩
    · exact ⟨by omega, writes, fun k low high => by omega⟩
    · refine ⟨by omega, writes, fun k low high => ?_⟩
      by_cases same : k = i
      · subst same
        exact quiet
      · exact none k low (by omega)

theorem readerSinceSucc :
    net.ReaderSince blob r (i + 1) ↔
      ¬ net.Writes i blob ∧ (net.ReaderSince blob r i ∨ (r = i ∧ net.Reads i blob)) := by
  constructor
  · intro h
    obtain ⟨bound, reads, none⟩ := h
    refine ⟨none i (by omega) (by omega), ?_⟩
    by_cases same : r = i
    · subst same
      exact Or.inr ⟨rfl, reads⟩
    · exact Or.inl ⟨by omega, reads, fun k low high => none k low (by omega)⟩
  · intro h
    obtain ⟨quiet, ⟨bound, reads, none⟩ | ⟨rfl, reads⟩⟩ := h
    · refine ⟨by omega, reads, fun k low high => ?_⟩
      by_cases same : k = i
      · subst same
        exact quiet
      · exact none k low (by omega)
    · refine ⟨by omega, reads, fun k low high => ?_⟩
      have same : k = r := by omega
      subst same
      exact quiet

end Net

namespace Graph
open Net

namespace Scan

theorem readAllWriters (s : Scan) (i : Nat) (blobs : List String) :
    (blobs.foldl (read i) s).writers = s.writers := by
  induction blobs generalizing s with
  | nil => rfl
  | cons blob rest ih => rw [List.foldl_cons, ih]; rfl

theorem readAllReaders {s : Scan} {i : Nat} {blobs : List String} {blob : String} {r : Nat} :
    (blob, r) ∈ (blobs.foldl (read i) s).readers ↔
      (blob, r) ∈ s.readers ∨ (r = i ∧ blob ∈ blobs) := by
  induction blobs generalizing s with
  | nil => simp
  | cons head rest ih =>
    rw [List.foldl_cons, ih]
    simp only [read, List.mem_cons, Prod.mk.injEq]
    grind

def sources (s : Scan) (blobs : List String) : Links :=
  blobs.filterMap fun blob => (s.writer? blob).map fun writer => ⟨writer, blob⟩

theorem memSources {s : Scan} {blobs : List String} {l : Link} :
    l ∈ s.sources blobs ↔ l.label ∈ blobs ∧ s.writer? l.label = some l.node := by
  simp only [sources, List.mem_filterMap, Option.map_eq_some_iff]
  constructor
  · intro h
    obtain ⟨blob, mem, writer, found, rfl⟩ := h
    exact ⟨mem, found⟩
  · intro h
    obtain ⟨mem, found⟩ := h
    exact ⟨l.label, mem, l.node, found, rfl⟩

theorem readAllGraph (s : Scan) (i : Nat) (blobs : List String) :
    (blobs.foldl (read i) s).graph =
      (s.sources blobs).foldl (fun h link => h.link link.node i link.label) s.graph := by
  induction blobs generalizing s with
  | nil => rfl
  | cons blob rest ih =>
    have later : (s.read i blob).sources rest = s.sources rest := rfl
    rw [List.foldl_cons, ih, later]
    cases found : s.writer? blob with
    | none => simp [read, sources, found]
    | some writer => simp [read, sources, found]

theorem readAllSize (s : Scan) (i : Nat) (blobs : List String) :
    (blobs.foldl (read i) s).graph.size = s.graph.size := by
  rw [readAllGraph]
  exact sizeLinkAll s.graph _

theorem readAllWriter (s : Scan) (i : Nat) (blobs : List String) (blob : String) :
    (blobs.foldl (read i) s).writer? blob = s.writer? blob := by
  simp only [writer?, readAllWriters]

theorem memReadersOf {s : Scan} {blob : String} {r : Nat} :
    r ∈ s.readersOf blob ↔ (blob, r) ∈ s.readers := by
  simp [readersOf]

theorem memWriteEarlier {s : Scan} {i j : Nat} {blob : String} :
    j ∈ ((s.writer? blob).toList ++ s.readersOf blob).filter (· ≠ i) ↔
      j ≠ i ∧ (s.writer? blob = some j ∨ (blob, j) ∈ s.readers) := by
  simp only [List.mem_filter, List.mem_append, Option.mem_toList, memReadersOf, decide_eq_true_eq]
  exact and_comm

theorem writerWrite (s : Scan) (i : Nat) (blob other : String) :
    (s.write i blob).writer? other = if other = blob then some i else s.writer? other := by
  simp only [write, writer?, List.lookup_cons]
  cases same : other == blob with
  | true => simp [beq_iff_eq.mp same]
  | false => simp [beq_eq_false_iff_ne.mp same]

theorem readersWrite {s : Scan} {i r : Nat} {blob other : String} :
    (other, r) ∈ (s.write i blob).readers ↔ (other, r) ∈ s.readers ∧ other ≠ blob := by
  simp [write]

theorem writeAllWriter (s : Scan) (i : Nat) (blobs : List String) (blob : String) :
    (blobs.foldl (write i) s).writer? blob =
      if blob ∈ blobs then some i else s.writer? blob := by
  induction blobs generalizing s with
  | nil => simp
  | cons head rest ih =>
    rw [List.foldl_cons, ih, writerWrite]
    by_cases later : blob ∈ rest <;> by_cases here : blob = head <;> simp [later, here]

theorem writeAllReaders {s : Scan} {i : Nat} {blobs : List String} {blob : String} {r : Nat} :
    (blob, r) ∈ (blobs.foldl (write i) s).readers ↔ (blob, r) ∈ s.readers ∧ blob ∉ blobs := by
  induction blobs generalizing s with
  | nil => simp
  | cons head rest ih =>
    rw [List.foldl_cons, ih, readersWrite, List.mem_cons, not_or, and_assoc]

theorem writeAllSize (s : Scan) (i : Nat) (blobs : List String) :
    (blobs.foldl (write i) s).graph.size = s.graph.size := by
  induction blobs generalizing s with
  | nil => rfl
  | cons blob rest ih =>
    rw [List.foldl_cons, ih]
    exact sizePrecedeAll s.graph _

theorem writeAllParents (s : Scan) (i : Nat) (blobs : List String) (j : Nat) :
    (blobs.foldl (write i) s).graph.parents j = s.graph.parents j := by
  induction blobs generalizing s with
  | nil => rfl
  | cons blob rest ih =>
    rw [List.foldl_cons, ih]
    exact parentsPrecedeAll s.graph _ j

theorem writeAllAfter {s : Scan} {i : Nat} {blobs : List String} {j k : Nat} :
    j ∈ (blobs.foldl (write i) s).graph.runsAfter k ↔
      j ∈ s.graph.runsAfter k ∨ (k = i ∧ i < s.graph.size ∧ j ≠ i ∧
        ∃ blob ∈ blobs, s.writer? blob = some j ∨ (blob, j) ∈ s.readers) := by
  induction blobs generalizing s with
  | nil => simp
  | cons head rest ih =>
    have size : (s.write i head).graph.size = s.graph.size := writeAllSize s i [head]
    have after : j ∈ (s.write i head).graph.runsAfter k ↔ j ∈ s.graph.runsAfter k ∨
        (k < s.graph.size ∧ k = i ∧ j ≠ i ∧ (s.writer? head = some j ∨ (head, j) ∈ s.readers)) := by
      refine memRunsAfterPrecedeAll.trans (or_congr_right ?_)
      simp only [memWriteEarlier]
      constructor
      · intro h
        obtain ⟨inside, x, ⟨other, waits⟩, rfl, rfl⟩ := h
        exact ⟨inside, rfl, other, waits⟩
      · intro h
        obtain ⟨inside, rfl, other, waits⟩ := h
        exact ⟨inside, j, ⟨other, waits⟩, rfl, rfl⟩
    rw [List.foldl_cons, ih, size, after]
    simp only [writerWrite, readersWrite, List.mem_cons, or_and_right, exists_or, exists_eq_left]
    constructor
    · intro h
      rcases h with (old | ⟨inside, rfl, other, waits⟩) | ⟨rfl, inside, other, blob, mem, waits⟩
      · exact Or.inl old
      · exact Or.inr ⟨rfl, inside, other, Or.inl waits⟩
      · refine Or.inr ⟨rfl, inside, other, Or.inr ⟨blob, mem, ?_⟩⟩
        rcases waits with writer | reader
        · split at writer
          · exact absurd (Option.some.inj writer).symm other
          · exact Or.inl writer
        · exact Or.inr reader.1
    · intro h
      rcases h with old | ⟨rfl, inside, other, waits | ⟨blob, mem, waits⟩⟩
      · exact Or.inl (Or.inl old)
      · exact Or.inl (Or.inr ⟨inside, rfl, other, waits⟩)
      -- The second write of a blob finds `i` itself as its writer and no readers.
      · by_cases same : blob = head
        · subst same
          exact Or.inl (Or.inr ⟨inside, rfl, other, waits⟩)
        · refine Or.inr ⟨rfl, inside, other, blob, mem, ?_⟩
          simpa [same] using waits

theorem writeAllMirrored {s : Scan} {i : Nat} {blobs : List String}
    (mirrored : Mirrored s.graph) (inside : i < s.graph.size)
    (writers : ∀ blob w, s.writer? blob = some w → w < s.graph.size)
    (readers : ∀ blob r, (blob, r) ∈ s.readers → r < s.graph.size) :
    Mirrored (blobs.foldl (write i) s).graph := by
  induction blobs generalizing s with
  | nil => exact mirrored
  | cons head rest ih =>
    have size : (s.write i head).graph.size = s.graph.size := writeAllSize s i [head]
    refine ih ?_ (size ▸ inside) ?_ ?_
    · refine mirrored.precedeAll fun j mem => ⟨?_, inside⟩
      rcases (memWriteEarlier.mp mem).2 with writer | reader
      · exact writers _ j writer
      · exact readers _ j reader
    · intro blob w found
      rw [writerWrite] at found
      split at found
      · exact size ▸ Option.some.inj found ▸ inside
      · exact size ▸ writers blob w found
    · intro blob r mem
      exact size ▸ readers blob r (readersWrite.mp mem).1

structure Describes (net : Net) (n : Nat) (s : Scan) : Prop where
  size : s.graph.size = net.ops.length
  mirrored : Mirrored s.graph
  parents : ∀ i w blob, ⟨w, blob⟩ ∈ s.graph.parents i ↔
    i < n ∧ net.Reads i blob ∧ net.LastWriter blob w i
  after : ∀ i j, j ∈ s.graph.runsAfter i ↔ i < n ∧ ∃ blob, net.Writes i blob ∧
    (net.LastWriter blob j i ∨ net.ReaderSince blob j i)
  writers : ∀ blob w, s.writer? blob = some w ↔ net.LastWriter blob w n
  readers : ∀ blob r, (blob, r) ∈ s.readers ↔ net.ReaderSince blob r n

section
variable {net : Net} {n : Nat} {s : Scan} {op : Operator} (d : Describes net n s)
  (here : net.ops[n]? = some op)
include d here

theorem Describes.inside : n < s.graph.size :=
  d.size ▸ (List.getElem?_eq_some_iff.mp here).1

theorem Describes.bounded {blob : String} {w : Nat} (found : s.writer? blob = some w) :
    w < s.graph.size :=
  Nat.lt_trans ((d.writers blob w).mp found).1 (d.inside here)

theorem Describes.visitMirrored : Mirrored (s.visit op n).graph := by
  have inside := d.inside here
  have size := readAllSize s n op.inputs
  refine writeAllMirrored ?_ (size ▸ inside) ?_ ?_
  · rw [readAllGraph]
    exact d.mirrored.linkAll fun l mem => ⟨d.bounded here (memSources.mp mem).2, inside⟩
  · intro blob w found
    rw [readAllWriter] at found
    exact size ▸ d.bounded here found
  · intro blob r mem
    rcases readAllReaders.mp mem with old | ⟨rfl, _⟩
    · exact size ▸ Nat.lt_trans ((d.readers blob r).mp old).1 inside
    · exact size ▸ inside

theorem Describes.visitParents {i w : Nat} {blob : String} :
    ⟨w, blob⟩ ∈ (s.visit op n).graph.parents i ↔
      i < n + 1 ∧ net.Reads i blob ∧ net.LastWriter blob w i := by
  rw [Scan.visit, writeAllParents, readAllGraph, memParentsLinkAll, d.parents]
  simp only [memSources, d.writers]
  constructor
  · intro h
    rcases h with ⟨bound, reads, last⟩ | ⟨_, l, ⟨reads, last⟩, rfl, same⟩
    · exact ⟨by omega, reads, last⟩
    · cases l
      cases same
      exact ⟨by omega, (readsIff here).mpr reads, last⟩
  · intro ⟨bound, reads, last⟩
    by_cases same : i = n
    · subst same
      exact Or.inr ⟨d.inside here, ⟨w, blob⟩, ⟨(readsIff here).mp reads, last⟩, rfl, rfl⟩
    · exact Or.inl ⟨by omega, reads, last⟩

theorem Describes.visitAfter {i j : Nat} :
    j ∈ (s.visit op n).graph.runsAfter i ↔ i < n + 1 ∧ ∃ blob, net.Writes i blob ∧
      (net.LastWriter blob j i ∨ net.ReaderSince blob j i) := by
  rw [Scan.visit, writeAllAfter, readAllSize, readAllGraph, runsAfterLinkAll, d.after]
  simp only [readAllReaders, readAllWriter, d.writers, d.readers]
  constructor
  · intro h
    rcases h with ⟨bound, waits⟩ | ⟨rfl, _, other, blob, writes, waits⟩
    · exact ⟨by omega, waits⟩
    · refine ⟨by omega, blob, (writesIff here).mpr writes, ?_⟩
      rcases waits with last | since | ⟨same, _⟩
      · exact Or.inl last
      · exact Or.inr since
      · exact absurd same other
  · intro ⟨bound, blob, writes, waits⟩
    by_cases same : i = n
    · subst same
      have less : j < i := waits.elim (fun last => last.1) fun since => since.1
      exact Or.inr ⟨rfl, d.inside here, by omega, blob, (writesIff here).mp writes,
        waits.imp_right Or.inl⟩
    · exact Or.inl ⟨by omega, blob, writes, waits⟩

theorem Describes.visit : Describes net (n + 1) (s.visit op n) where
  size := by rw [Scan.visit, writeAllSize, readAllSize, d.size]
  mirrored := d.visitMirrored here
  parents i w blob := d.visitParents here
  after i j := d.visitAfter here
  writers blob w := by
    rw [Scan.visit, writeAllWriter, readAllWriter, lastWriterSucc, writesIff here]
    by_cases written : blob ∈ op.outputs
    · simp [written, eq_comm]
    · simp [written, d.writers]
  readers blob r := by
    rw [Scan.visit, writeAllReaders, readAllReaders, readerSinceSucc, writesIff here,
      readsIff here, d.readers, and_comm]

end

theorem describesVisits {net : Net} {n : Nat} {s : Scan} (d : Describes net n s)
    {rest : List Operator} (suffix : net.ops.drop n = rest) :
    Describes net (n + rest.length)
      ((rest.zipIdx n).foldl (fun s entry => s.visit entry.1 entry.2) s) := by
  induction rest generalizing n s with
  | nil => exact d
  | cons op rest ih =>
    have here : net.ops[n]? = some op := by
      rw [← List.head?_drop, suffix, List.head?_cons]
    have tail : net.ops.drop (n + 1) = rest := by
      rw [← List.tail_drop, suffix, List.tail_cons]
    have all := ih (d.visit here) tail
    rwa [Nat.add_assoc, Nat.add_comm 1, ← List.length_cons] at all

theorem sameNodesFold {α : Type} {step : Scan → α → Scan}
    (each : ∀ s x, SameNodes s.graph (step s x).graph) (xs : List α) (s : Scan) :
    SameNodes s.graph (xs.foldl step s).graph := by
  induction xs generalizing s with
  | nil => exact SameNodes.refl s.graph
  | cons x rest ih => exact (each s x).trans (ih (step s x))

theorem sameNodesRead (i : Nat) (s : Scan) (blob : String) :
    SameNodes s.graph (s.read i blob).graph := by
  unfold read
  cases s.writer? blob with
  | none => exact SameNodes.refl s.graph
  | some writer => exact SameNodes.link s.graph writer i blob

theorem sameNodesWrite (i : Nat) (s : Scan) (blob : String) :
    SameNodes s.graph (s.write i blob).graph :=
  SameNodes.foldl (fun h first => SameNodes.precede h first i) _ s.graph

theorem sameNodesVisit (s : Scan) (entry : Operator × Nat) :
    SameNodes s.graph (s.visit entry.1 entry.2).graph :=
  (sameNodesFold (sameNodesRead entry.2) entry.1.inputs s).trans
    (sameNodesFold (sameNodesWrite entry.2) entry.1.outputs _)

end Scan

theorem isolatedNode (net : Net) (i : Nat) :
    (isolated net).node? i = (net.ops[i]?).map fun op => { op } := by
  simp [isolated, node?]

theorem describesIsolated (net : Net) : Scan.Describes net 0 { graph := isolated net } := by
  have parents : ∀ i, (isolated net).parents i = [] := fun i => by
    simp only [Graph.parents, isolatedNode]
    cases net.ops[i]? <;> rfl
  have children : ∀ i, (isolated net).children i = [] := fun i => by
    simp only [Graph.children, isolatedNode]
    cases net.ops[i]? <;> rfl
  have after : ∀ i, (isolated net).runsAfter i = [] := fun i => by
    simp only [runsAfter, isolatedNode]
    cases net.ops[i]? <;> rfl
  have before : ∀ i, (isolated net).runsBefore i = [] := fun i => by
    simp only [runsBefore, isolatedNode]
    cases net.ops[i]? <;> rfl
  exact {
    size := by simp [isolated, size]
    mirrored :=
      { links := by simp [parents, children]
        orderings := by simp [after, before]
        after := by simp [after, Ascending.Sorted]
        before := by simp [before, Ascending.Sorted] }
    parents := by simp [parents]
    after := by simp [after]
    writers := by simp [Scan.writer?, LastWriter]
    readers := by simp [ReaderSince] }

theorem describesOfNet (net : Net) : ∃ s : Scan,
    s.graph = ofNet net ∧ s.Describes net net.ops.length := by
  have all := Scan.describesVisits (describesIsolated net) (List.drop_zero (l := net.ops))
  rw [Nat.zero_add] at all
  exact ⟨_, rfl, all⟩

@[simp] theorem sizeOfNet (net : Net) : (ofNet net).size = net.ops.length := by
  obtain ⟨s, same, d⟩ := describesOfNet net
  exact same ▸ d.size

theorem sameNodesOfNet (net : Net) : SameNodes (isolated net) (ofNet net) :=
  Scan.sameNodesFold Scan.sameNodesVisit net.ops.zipIdx { graph := isolated net }

theorem opOfNet (net : Net) (i : Nat) : ((ofNet net).node? i).map Node.op = net.ops[i]? := by
  rw [(sameNodesOfNet net).op, isolatedNode, Option.map_map]
  exact Option.map_id' ..

theorem isActiveOfNet (net : Net) (i : Nat) :
    (ofNet net).isActive i = decide (i < net.ops.length) := by
  rw [(sameNodesOfNet net).active, isActive, isolatedNode]
  by_cases inside : i < net.ops.length
  · simp [inside]
  · simp [inside]

theorem mirroredOfNet (net : Net) : Mirrored (ofNet net) := by
  obtain ⟨s, same, d⟩ := describesOfNet net
  exact same ▸ d.mirrored

theorem memParentsOfNet {net : Net} {w i : Nat} {blob : String} :
    ⟨w, blob⟩ ∈ (ofNet net).parents i ↔ net.Reads i blob ∧ net.LastWriter blob w i := by
  obtain ⟨s, same, d⟩ := describesOfNet net
  rw [← same, d.parents]
  exact and_iff_right_of_imp fun h => h.1.inRange

theorem memRunsAfterOfNet {net : Net} {j i : Nat} :
    j ∈ (ofNet net).runsAfter i ↔ ∃ blob, net.Writes i blob ∧
      (net.LastWriter blob j i ∨ net.ReaderSince blob j i) := by
  obtain ⟨s, same, d⟩ := describesOfNet net
  rw [← same, d.after]
  exact and_iff_right_of_imp fun ⟨_, writes, _⟩ => writes.inRange

end Graph

end OpNet
