import OpNet.Proofs.Fixpoint
import Mathlib.Data.List.Pairwise

/-!
Which chains a search finds on a rewritten graph, and which ones in the net that the graph is
exported as. The search goes by index, and on the graph it meets inactive nodes and nodes whose
index is not their place in the order. Main statement: it finds the same chains on both exactly if
those that it finds in the net ascend by index and keep clear of matches with inactive nodes, and
every other chain that ascends has one of these or such a match in its way.
-/
namespace OpNet.Fusion
open OpNet.Graph Search Net

structure Whole (f : Fusion) (g : Graph) (chain : List Nat) : Prop where
  steps : f.Steps g chain
  valid : f.validate g chain = true
  active : ∀ i ∈ chain, g.isActive i = true

def Mixed (g : Graph) (m : Match) : Prop :=
  (∃ i ∈ m.nodes, g.isActive i = true) ∧ ∃ i ∈ m.nodes, g.isActive i = false

def renamed (rename : Nat → Nat) (m : Match) : Match := ⟨m.nodes.map rename⟩

def Meets (one two : List Nat) : Prop := ∃ i ∈ one, i ∈ two

def Precedes (place : Nat → Nat) (one two : List Nat) : Prop :=
  ∃ x y, one.head? = some x ∧ two.head? = some y ∧ place x < place y

section
variable {f : Fusion} {g : Graph} {net : Net} {chain other : List Nat} {x : Nat}
  {claimed : List Nat} {result : Found} {m n : Match}

theorem Complete.sequence (complete : f.Complete g chain) (head : chain.head? = some x)
    (free : ∀ i ∈ chain, i ∉ claimed) : Sequence g f.rule .ordered claimed x chain := by
  have nodup : chain.Nodup := complete.ascending.imp Nat.ne_of_lt
  refine .ofSteps head nodup (fun i mem => ⟨complete.inside i mem, free i mem⟩) complete.steps ?_
  intro k i _ here last final
  have ascending := complete.ascending
  rw [← List.take_append_drop k chain, List.pairwise_append] at ascending
  have later : i ∈ chain.drop k := List.mem_of_mem_head? (by rw [List.head?_drop, here]; rfl)
  exact ascending.2.2 last (List.mem_of_getLast? final) i later

theorem completeUnique (one : f.Complete (ofNet net) chain) (two : f.Complete (ofNet net) other)
    (same : chain.head? = other.head?) : chain = other := by
  obtain ⟨first, rest, rfl⟩ := List.exists_cons_of_ne_nil one.nonempty
  have free : ∀ nodes : List Nat, ∀ i ∈ nodes, i ∉ ([] : List Nat) := fun _ _ _ => List.not_mem_nil
  exact uniqueChain (one.sequence rfl (free _)) one.valid (two.sequence same.symm (free _))
    two.valid

theorem stepsAscend (steps : f.Steps (ofNet net) chain) : chain.Pairwise (· < ·) := by
  rw [← List.isChain_iff_pairwise, List.isChain_iff_getElem]
  intro k inside
  have accepted := steps (k + 1) chain[k + 1] (List.getElem?_eq_getElem inside)
  have final : (chain.take (k + 1)).getLast? = some chain[k] := by
    rw [List.take_add_one, List.getElem?_eq_getElem (Nat.lt_of_succ_lt inside), Option.toList_some,
      List.getLast?_concat]
  obtain ⟨_, _, writer⟩ := readsLast accepted final
  exact writer.1

theorem completeBlocked (searched : findMatches g f.rule {} = .ok result)
    (complete : f.Complete g chain) : ∃ m ∈ result.found, Meets chain m.nodes ∧
      (m.nodes.head? = chain.head? ∨ Precedes id m.nodes chain) := by
  obtain ⟨x, rest, rfl⟩ := List.exists_cons_of_ne_nil complete.nonempty
  by_cases free : ∀ i ∈ x :: rest, i ∉ result.claimedBefore x
  · obtain ⟨m, mem, head⟩ := recordedOfSequence searched (complete.sequence rfl free) complete.valid
    exact ⟨m, mem, ⟨x, List.mem_cons_self, List.mem_of_mem_head? head⟩, Or.inl head⟩
  · simp only [not_forall, not_not] at free
    obtain ⟨i, member, claimed⟩ := free
    obtain ⟨m, mem, ⟨y, less, head⟩, here⟩ := Found.memClaimed.mp claimed
    exact ⟨m, mem, ⟨i, member, here⟩, Or.inr ⟨y, x, head, rfl, less⟩⟩

theorem meetsSame (searched : findMatches g f.rule {} = .ok result) (one : m ∈ result.found)
    (two : n ∈ result.found) (meets : Meets m.nodes n.nodes) : m = n := by
  by_contra differ
  obtain ⟨i, here, there⟩ := meets
  have : Std.Symm fun m n : Match => ∀ i ∈ m.nodes, i ∉ n.nodes :=
    ⟨fun _ _ apart j there here => apart j here there⟩
  exact (findMatchesLegal searched).apart.forall one two differ i here there

theorem liveOrMixed {i : Nat} (member : i ∈ m.nodes) (active : g.isActive i = true) :
    m.isLive g = true ∨ Mixed g m := by
  rw [Match.liveIff]
  by_cases live : ∀ j ∈ m.nodes, g.isActive j = true
  · exact Or.inl live
  · simp only [not_forall, Bool.not_eq_true] at live
    obtain ⟨j, there, inactive⟩ := live
    exact Or.inr ⟨⟨i, member, active⟩, j, there, inactive⟩

theorem notMixed (live : m.isLive g = true) : ¬ Mixed g m := by
  rintro ⟨_, j, there, inactive⟩
  rw [Match.liveIff.mp live j there] at inactive
  cases inactive

theorem wholeOfFound (searched : findMatches g f.rule {} = .ok result) (mem : m ∈ result.found)
    (live : m.isLive g = true) : f.Whole g m.nodes := by
  have complete := completeOfFound searched m mem
  exact ⟨complete.steps, complete.valid, Match.liveIff.mp live⟩

end

/-! What the second search takes in the net, at the places that `rename` gives. -/

section
variable {f : Fusion} {g : Graph} {out : Net} {rename : Nat → Nat} {a b : Found}
  {chain other : List Nat}

theorem wholeIff (renames : Renames g (ofNet out) rename)
    (active : ∀ i ∈ chain, g.isActive i = true) :
    f.Complete (ofNet out) (chain.map rename) ↔ f.Whole g chain := by
  have steps := stepsEmbed (f := f) renames.embeds active
  have valid := validateRenamed (f := f) renames active
  constructor
  · intro complete
    exact ⟨steps.mp complete.steps, valid ▸ complete.valid, active⟩
  · intro whole
    have moved := steps.mpr whole.steps
    exact ⟨moved, valid.trans whole.valid, stepsAscend moved⟩

theorem Whole.renamed (whole : f.Whole g chain) (renames : Renames g (ofNet out) rename) :
    f.Complete (ofNet out) (chain.map rename) := (wholeIff renames whole.active).mpr whole

theorem Whole.length (whole : f.Whole g chain) : chain.length = f.pattern.length := by
  have valid := whole.valid
  simp only [validate, Bool.and_eq_true, decide_eq_true_eq] at valid
  exact valid.1.1

theorem Whole.unique (renames : Renames g (ofNet out) rename) (one : f.Whole g chain)
    (two : f.Whole g other) (same : chain.head? = other.head?) : chain = other := by
  refine renames.embeds.mapInjective one.active two.active ?_
  refine completeUnique (one.renamed renames) (two.renamed renames) ?_
  rw [List.head?_map, List.head?_map, same]

theorem wholeOfTaken (renames : Renames g (ofNet out) rename)
    (right : findMatches (ofNet out) f.rule {} = .ok b) {m : Match} (mem : m ∈ b.found) :
    ∃ chain, f.Whole g chain ∧ m = ⟨chain.map rename⟩ := by
  obtain ⟨nodes⟩ := m
  have complete := completeOfFound right _ mem
  obtain ⟨chain, rfl, active⟩ := renames.pull fun y (here : y ∈ nodes) => by
    simpa [isActiveOfNet] using complete.inside y here
  exact ⟨chain, (wholeIff renames active).mp complete, rfl⟩

theorem meetsRenamed (renames : Renames g (ofNet out) rename) (one : f.Whole g chain)
    (two : f.Whole g other) : Meets (chain.map rename) (other.map rename) ↔ Meets chain other := by
  constructor
  · intro ⟨y, here, there⟩
    obtain ⟨i, member, rfl⟩ := List.mem_map.mp here
    exact ⟨i, member, (renames.embeds.memMap two.active (one.active i member)).mp there⟩
  · intro ⟨i, here, there⟩
    exact ⟨rename i, List.mem_map_of_mem here, List.mem_map_of_mem there⟩

theorem precedesRenamed : Precedes id (chain.map rename) (other.map rename) ↔
    Precedes rename chain other := by
  simp [Precedes]

theorem blockedByPlace (renames : Renames g (ofNet out) rename)
    (right : findMatches (ofNet out) f.rule {} = .ok b) (whole : f.Whole g chain)
    (absent : ⟨chain.map rename⟩ ∉ b.found) : ∃ other, f.Whole g other ∧
      ⟨other.map rename⟩ ∈ b.found ∧ Meets chain other ∧ Precedes rename other chain := by
  -- In the net only a chain that starts earlier stands in the way, for all are active.
  obtain ⟨m, mem, meets, first⟩ := completeBlocked right (whole.renamed renames)
  obtain ⟨other, known, rfl⟩ := wholeOfTaken renames right mem
  rcases first with same | before
  · rw [completeUnique (known.renamed renames) (whole.renamed renames) same] at mem
    exact absurd mem absent
  · exact ⟨other, known, mem, (meetsRenamed renames whole known).mp meets,
      precedesRenamed.mp before⟩

theorem blockedByIndex (renames : Renames g (ofNet out) rename)
    (left : findMatches g f.rule {} = .ok a) (whole : f.Whole g chain)
    (ascends : chain.Pairwise (· < ·)) (absent : ⟨chain⟩ ∉ a.found) :
    (∃ other, f.Whole g other ∧ ⟨other⟩ ∈ a.found ∧ Meets chain other ∧
      Precedes id other chain) ∨ ∃ m ∈ a.found, Mixed g m ∧ Meets chain m.nodes := by
  obtain ⟨m, mem, meets, first⟩ := completeBlocked left ⟨whole.steps, whole.valid, ascends⟩
  obtain ⟨i, here, there⟩ := meets
  rcases liveOrMixed there (whole.active i here) with live | mixed
  · have known := wholeOfFound left mem live
    rcases first with same | before
    · exact absurd (known.unique renames whole same ▸ mem) absent
    · exact Or.inl ⟨m.nodes, known, mem, ⟨i, here, there⟩, before⟩
  · exact Or.inr ⟨m, mem, mixed, i, here, there⟩

end

/-- The search by index comes to the chains that are `later` taken in the net. -/
structure Undisturbed (f : Fusion) (g : Graph) (place : Nat → Nat) (found later : List Match) :
    Prop where
  ascends : ∀ chain, f.Whole g chain → ⟨chain.map place⟩ ∈ later → chain.Pairwise (· < ·)
  clear : ∀ chain, f.Whole g chain → ⟨chain.map place⟩ ∈ later →
    ∀ m ∈ found, Mixed g m → ¬ Meets chain m.nodes
  blocked : ∀ chain, f.Whole g chain → chain.Pairwise (· < ·) → ⟨chain.map place⟩ ∉ later →
    (∃ other, f.Whole g other ∧ ⟨other.map place⟩ ∈ later ∧ Meets chain other ∧
      Precedes id other chain) ∨ ∃ m ∈ found, Mixed g m ∧ Meets chain m.nodes

def FusesAlike (g : Graph) (place : Nat → Nat) (found later : List Match) : Prop :=
  later.Perm ((found.filter (Match.isLive g)).map (renamed place))

structure Aligned (f : Fusion) (g : Graph) (place : Nat → Nat) (found : List Match) : Prop where
  ascends : ∀ chain, f.Whole g chain → chain.Pairwise (· < ·)
  alike : ∀ one two, f.Whole g one → f.Whole g two → Meets one two → Precedes place one two →
    Precedes id one two
  clear : ∀ chain, f.Whole g chain → ∀ m ∈ found, Mixed g m → ¬ Meets chain m.nodes

section
variable {f : Fusion} {g : Graph} {out : Net} {rename : Nat → Nat} {a b : Found}
  {chain other : List Nat} (renames : Renames g (ofNet out) rename)
  (left : findMatches g f.rule {} = .ok a) (right : findMatches (ofNet out) f.rule {} = .ok b)
include renames left right

theorem Undisturbed.found (undisturbed : f.Undisturbed g rename a.found b.found) {x : Nat}
    (whole : f.Whole g chain) (taken : ⟨chain.map rename⟩ ∈ b.found)
    (head : chain.head? = some x) : ⟨chain⟩ ∈ a.found := by
  -- By the first node: what stands in the way of a chain starts before it.
  induction x using Nat.strongRecOn generalizing chain with
  | ind x ih =>
    by_contra absent
    have ascends := undisturbed.ascends chain whole taken
    rcases blockedByIndex renames left whole ascends absent with
      ⟨other, known, there, meets, y, _, first, last, less⟩ | ⟨m, mem, mixed, meets⟩
    · cases last.symm.trans head
      have also : ⟨other.map rename⟩ ∈ b.found := by
        by_contra missed
        have rises := (completeOfFound left _ there).ascending
        rcases undisturbed.blocked other known rises missed with
          ⟨third, whole, taken, shared, z, _, head, final, sooner⟩ | ⟨m, mem, mixed, shared⟩
        · cases final.symm.trans first
          cases meetsSame left there (ih z (Nat.lt_trans sooner less) whole taken head) shared
          exact missed taken
        · cases meetsSame left there mem shared
          exact notMixed (Match.liveIff.mpr known.active) mixed
      have same := meetsSame right taken also ((meetsRenamed renames whole known).mpr meets)
      cases renames.embeds.mapInjective whole.active known.active (Match.mk.inj same)
      exact absent there
    · exact undisturbed.clear chain whole taken m mem mixed meets

theorem undisturbedIff : f.Undisturbed g rename a.found b.found ↔
    ∀ chain, f.Whole g chain → (⟨chain⟩ ∈ a.found ↔ ⟨chain.map rename⟩ ∈ b.found) := by
  constructor
  · intro undisturbed chain whole
    have takes : ∀ other, f.Whole g other → ⟨other.map rename⟩ ∈ b.found → ⟨other⟩ ∈ a.found := by
      intro other known taken
      have some : other ≠ [] := fun none => (known.renamed renames).nonempty (by rw [none]; rfl)
      obtain ⟨x, rest, rfl⟩ := List.exists_cons_of_ne_nil some
      exact undisturbed.found renames left right known taken rfl
    refine ⟨fun mem => ?_, takes chain whole⟩
    by_contra absent
    obtain ⟨other, known, taken, meets, before⟩ := blockedByPlace renames right whole absent
    have same := meetsSame left mem (takes other known taken) meets
    cases same
    exact absent taken
  · intro agree
    refine ⟨fun chain whole taken => ?_, fun chain whole taken m mem mixed meets => ?_,
      fun chain whole ascends absent => ?_⟩
    · exact (completeOfFound left _ ((agree chain whole).mpr taken)).ascending
    · cases meetsSame left ((agree chain whole).mpr taken) mem meets
      exact notMixed (Match.liveIff.mpr whole.active) mixed
    · refine (blockedByIndex renames left whole ascends fun mem =>
        absent ((agree chain whole).mp mem)).imp_left ?_
      rintro ⟨other, known, there, meets, before⟩
      exact ⟨other, known, (agree other known).mp there, meets, before⟩

omit left in
theorem Aligned.undisturbed (aligned : f.Aligned g rename a.found) :
    f.Undisturbed g rename a.found b.found where
  ascends chain whole _ := aligned.ascends chain whole
  clear chain whole _ := aligned.clear chain whole
  blocked chain whole _ absent := by
    obtain ⟨other, known, taken, meets, before⟩ := blockedByPlace renames right whole absent
    have shared : Meets other chain := by
      obtain ⟨i, here, there⟩ := meets
      exact ⟨i, there, here⟩
    exact Or.inl ⟨other, known, taken, meets, aligned.alike other chain known whole shared before⟩

end

theorem nodupFound {g : Graph} {f : Fusion} {a : Found} (run : findMatches g f.rule {} = .ok a) :
    a.found.Nodup := by
  have after := afterFindMatches run
  refine after.rising.imp_of_mem fun {m n} mem _ rising same => ?_
  obtain ⟨start, _, head⟩ := after.begins m mem
  exact Nat.lt_irrefl start (rising start head start (same ▸ head))

section
variable {f : Fusion} {g : Graph} {out : Net} {rename : Nat → Nat} {a b : Found}
  {chain : List Nat} (renames : Renames g (ofNet out) rename)
include renames

theorem memRenamed (whole : f.Whole g chain) {found : List Match} :
    ⟨chain.map rename⟩ ∈ (found.filter (Match.isLive g)).map (renamed rename) ↔
      ⟨chain⟩ ∈ found := by
  simp only [List.mem_map, List.mem_filter]
  constructor
  · intro ⟨m, ⟨mem, live⟩, same⟩
    cases renames.embeds.mapInjective (Match.liveIff.mp live) whole.active (Match.mk.inj same)
    exact mem
  · exact fun mem => ⟨⟨chain⟩, ⟨mem, Match.liveIff.mpr whole.active⟩, rfl⟩

theorem nodupRenamed {found : List Match} (nodup : found.Nodup) :
    ((found.filter (Match.isLive g)).map (renamed rename)).Nodup := by
  refine (nodup.filter _).map_on fun m one n two same => ?_
  have equal := renames.embeds.mapInjective (Match.liveIff.mp (List.mem_filter.mp one).2)
    (Match.liveIff.mp (List.mem_filter.mp two).2) (Match.mk.inj same)
  exact congrArg Match.mk equal

theorem fusesAlikeIff (left : findMatches g f.rule {} = .ok a)
    (right : findMatches (ofNet out) f.rule {} = .ok b) :
    FusesAlike g rename a.found b.found ↔
      ∀ chain, f.Whole g chain → (⟨chain⟩ ∈ a.found ↔ ⟨chain.map rename⟩ ∈ b.found) := by
  constructor
  · intro perm chain whole
    exact (memRenamed renames whole).symm.trans perm.mem_iff.symm
  · intro agree
    have distinct := nodupRenamed renames (nodupFound left)
    refine (List.perm_ext_iff_of_nodup (nodupFound right) distinct).mpr fun m => ?_
    constructor
    · intro mem
      obtain ⟨chain, whole, rfl⟩ := wholeOfTaken renames right mem
      exact (memRenamed renames whole).mpr ((agree chain whole).mpr mem)
    · intro mem
      obtain ⟨⟨chain⟩, known, rfl⟩ := List.mem_map.mp mem
      obtain ⟨found, live⟩ := List.mem_filter.mp known
      have whole := wholeOfFound left found live
      exact (agree chain whole).mp found

end

end OpNet.Fusion
