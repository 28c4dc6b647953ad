import PagedIndex.Proofs.Tree.Plan

/-!
# Surveys of a plan

## Main definitions

* `Survey.Adds` — what a walk over a part of a tree adds to a survey.

## Main statements

* `Tree.acts_survey` — a survey of a file that is as planned counts what is planned, and every check
  is passed.
-/

namespace PagedIndex

/-- A walk over a part of a tree has added entries and blocks to a survey, with all leaves at one
depth. -/
structure Survey.Adds (s : Survey) (leafDepth entries blocks : Nat) (s' : Survey) : Prop where
  leafDepth : s'.leafDepth = some leafDepth
  entries : s'.entries = s.entries + entries
  blocks : s'.leaves + s'.branches = s.leaves + s.branches + blocks

namespace Tree

variable {t : Tree} {c : Board} {depth here levels : Nat} {x : Subtree} {pos : BlockPos}
  {es : List Entry} {lower upper : Option Entry} {s : Survey} {check : Bool}

theorem acts_checkOrder (hasc : t.Ascending (lower.toList ++ es ++ upper.toList)) :
    Program.Acts t.layout (t.checkOrder pos lower es upper) c fun r d => r = .ok () ∧ d = c := by
  unfold checkOrder
  rw [(ordered_iff_ascending _).mpr hasc]
  exact Program.acts_pure ⟨rfl, rfl⟩

theorem acts_surveyLeaf (hs : ∀ n ∈ s.leafDepth, n = here) :
    Program.Acts t.layout (surveyLeaf check pos here s) c fun r d =>
      r = .ok { s with leafDepth := some here, leaves := s.leaves + 1 } ∧ d = c := by
  have hsame : s.leafDepth.getD here = here := by
    cases h : s.leafDepth with
    | none => rfl
    | some n => exact hs n h
  unfold surveyLeaf
  simp only [hsame, bne_self_eq_false, Bool.and_false, Bool.false_eq_true, if_false]
  exact Program.acts_pure ⟨rfl, rfl⟩

/-- Children are visited one after the other. -/
theorem acts_surveyChildren {visit : BlockPos → Option Entry → Option Entry → Survey → Program Survey}
    {first : Subtree} {rest : List (Entry × Subtree)} {i : Nat}
    (hvisit : ∀ y ∈ first :: rest.map Prod.snd, ∀ (lower upper : Option Entry) (s : Survey),
      t.Ascending (lower.toList ++ y.entries ++ upper.toList) → (∀ n ∈ s.leafDepth, n = here) →
      Program.Acts t.layout (visit y.pos lower upper s) c fun r d =>
        d = c ∧ ∃ s', r = .ok s' ∧ s.Adds here y.entries.length y.blocks.length s')
    (hnull : ∀ y ∈ first :: rest.map Prod.snd, y.pos ≠ .null)
    (hasc : t.Ascending (lower.toList ++ (Subtree.branch pos first rest).entries ++ upper.toList))
    (hs : ∀ n ∈ s.leafDepth, n = here) :
    Program.Acts t.layout (surveyChildren visit pos i lower first.pos
      (rest.map fun s => (s.1, s.2.pos)) upper s) c fun r d => d = c ∧ ∃ s' n, r = .ok s' ∧
        n + rest.length = (Subtree.branch pos first rest).entries.length ∧
        s.Adds here n ((first :: rest.map Prod.snd).flatMap Subtree.blocks).length s' := by
  have hfirst := hnull first List.mem_cons_self
  induction rest generalizing first i lower s with
  | nil =>
    simp only [List.map_nil, surveyChildren, BlockPos.isNull_eq_false hfirst, Bool.false_eq_true,
      if_false]
    have hentries : (Subtree.branch pos first []).entries = first.entries := by simp [Subtree.branch]
    rw [hentries] at hasc ⊢
    refine (hvisit first List.mem_cons_self lower upper s hasc hs).mono ?_
    rintro r d ⟨hd, s', hr, hadds⟩
    exact ⟨hd, s', _, hr, rfl, by simpa using hadds⟩
  | cons sep rest ih =>
    obtain ⟨e, y⟩ := sep
    have hentries : (Subtree.branch pos first ((e, y) :: rest)).entries =
        first.entries ++ e :: (Subtree.branch pos y rest).entries := by
      simp [Subtree.branch]
    rw [hentries] at hasc ⊢
    have hbefore : t.Ascending (lower.toList ++ first.entries ++ (some e).toList) := by
      refine hasc.sublist (List.IsPrefix.sublist
        ⟨(Subtree.branch pos y rest).entries ++ upper.toList, ?_⟩)
      simp
    have hbehind : t.Ascending ((some e).toList ++ (Subtree.branch pos y rest).entries ++
        upper.toList) := by
      refine hasc.sublist (List.IsSuffix.sublist ⟨lower.toList ++ first.entries, ?_⟩)
      simp
    simp only [List.map_cons, surveyChildren, BlockPos.isNull_eq_false hfirst, Bool.false_eq_true,
      if_false]
    refine (hvisit first List.mem_cons_self lower (some e) s hbefore hs).bind
      ?_ ?_
    · rintro _ _ ⟨-, _, hr, -⟩
      cases hr
    rintro s' d ⟨rfl, s'', hr, hfound⟩
    cases hr
    refine (ih (fun z hz => hvisit z (List.mem_cons_of_mem _ hz))
      (fun z hz => hnull z (List.mem_cons_of_mem _ hz)) hbehind
      (fun n hn => ?_) (hnull y (by simp))).mono ?_
    · rw [hfound.leafDepth] at hn
      exact (Option.mem_some.mp hn).symm
    · rintro r d ⟨hd, s', n, hr, hn, hadds⟩
      refine ⟨hd, s', first.entries.length + n, hr, ?_, hadds.leafDepth, ?_, ?_⟩
      · simp only [List.length_append, List.length_cons, ← hn]
        omega
      · rw [hadds.entries, hfound.entries, Nat.add_assoc]
      · rw [hadds.blocks, hfound.blocks]
        simp only [List.flatMap_cons, List.length_append]
        omega

/-- A subtree is walked over and counted, and found in order. -/
theorem acts_surveyNode (hx : x.OnBoard t.layout c.cells depth) (hfull : x.Full)
    (hlevels : depth < levels) (hnull : ∀ p ∈ x.blocks, p ≠ .null)
    (hasc : t.Ascending (lower.toList ++ x.entries ++ upper.toList))
    (hs : ∀ n ∈ s.leafDepth, n = here + depth) :
    Program.Acts t.layout (t.surveyNode check levels here x.pos lower upper s) c fun r d =>
      d = c ∧ ∃ s', r = .ok s' ∧ s.Adds (here + depth) x.entries.length x.blocks.length s' := by
  induction depth generalizing levels here x lower upper s with
  | zero =>
    obtain ⟨levels, rfl⟩ : ∃ n, levels = n + 1 := ⟨levels - 1, by omega⟩
    cases hx with
    | @leaf pos es hcell =>
    unfold surveyNode
    refine (Program.acts_loadNode Role.current_ne hcell).bind_ok ?_
    have hholds : (check && (Node.leaf es).isEmpty) = false := by
      rw [show (Node.leaf es).isEmpty = false from hfull, Bool.and_false]
    simp only [hholds, Bool.false_eq_true, if_false]
    refine Program.Acts.bind_ok (acts_surveyLeaf hs) ?_
    refine Program.acts_check (acts_checkOrder hasc) (Program.acts_pure ⟨rfl, _, rfl, rfl, rfl, ?_⟩)
    simp only [Subtree.leaf, List.length_singleton]
    omega
  | succ depth ih =>
    obtain ⟨levels, rfl⟩ : ∃ n, levels = n + 1 := ⟨levels - 1, by omega⟩
    cases hx with
    | @branch _ pos first rest hcell hfits hchildren hchildfull =>
    unfold surveyNode
    refine (Program.acts_loadNode Role.current_ne hcell).bind_ok ?_
    have hholds : (check && (Subtree.branch pos first rest).node.isEmpty) = false := by
      rw [show (Subtree.branch pos first rest).node.isEmpty = false from hfull, Bool.and_false]
    simp only [hholds, Bool.false_eq_true, if_false]
    have hseparators : Branch.entries ⟨first.pos, rest.map fun s => (s.1, s.2.pos)⟩ =
        rest.map Prod.fst := by
      simp [Branch.entries, Function.comp_def]
    have hchild : ∀ y ∈ first :: rest.map Prod.snd, ∀ p ∈ y.blocks, p ≠ .null := fun y hy p hp =>
      hnull p (List.mem_cons_of_mem _ (List.mem_flatMap.mpr ⟨y, hy, hp⟩))
    have hdepth : here + (depth + 1) = here + 1 + depth := by omega
    rw [hdepth] at hs ⊢
    refine Program.acts_check (acts_checkOrder ?_) ?_
    · rw [hseparators]
      exact hasc.sublist (((Subtree.separators_sublist pos first rest).append_left _).append_right _)
    · refine Program.Acts.mono (acts_surveyChildren (fun y hy lower upper s =>
        ih (hchildren y hy) (hchildfull y hy) (Nat.lt_of_succ_lt_succ hlevels) (hchild y hy))
        ?_ hasc ?_) ?_
      · exact fun y hy => hchild y hy _ (hchildren y hy).pos_mem
      · exact hs
      · rintro r d ⟨hd, s', n, hr, hn, hadds⟩
        refine ⟨hd, s', hr, hadds.leafDepth, ?_, ?_⟩
        · have hsize : (Subtree.branch pos first rest).node.entries.length = rest.length := by
            simp [Subtree.branch, Node.entries, Branch.entries]
          have hn : n + rest.length = (Subtree.branch pos first rest).entries.length := hn
          rw [hadds.entries, ← hn, hsize]
          dsimp only
          omega
        · rw [hadds.blocks]
          simp [Subtree.branch]
          omega

/-! ## Chains -/

/-- The chain of deleted blocks is counted. -/
theorem acts_freeChainLength {head : BlockPos} {free : List BlockPos} {blocks bound : Nat}
    (h : Chain id c.Deleted head free) (hnull : ∀ p ∈ free, p ≠ .null)
    (hbound : free.length ≤ bound) :
    Program.Acts t.layout (t.freeChainLength blocks bound head) c fun r d =>
      r = .ok (blocks + free.length) ∧ d = c := by
  induction free generalizing head blocks bound with
  | nil =>
    unfold freeChainLength
    rw [show head.isNull = true from BlockPos.isNull_iff.mpr h, if_pos rfl]
    exact Program.acts_pure ⟨rfl, rfl⟩
  | cons pos free ih =>
    obtain ⟨rfl, next, hnext, hrest⟩ := h
    obtain ⟨bound, rfl⟩ : ∃ n, bound = n + 1 := ⟨bound - 1, by simp at hbound; omega⟩
    unfold freeChainLength
    rw [BlockPos.isNull_eq_false (hnull _ List.mem_cons_self), if_neg Bool.false_ne_true]
    refine Program.acts_loadDeleted Role.sibling_ne hnext ?_
    refine (ih hrest (fun p hp => hnull p (List.mem_cons_of_mem _ hp))
      (Nat.le_of_succ_le_succ hbound)).mono ?_
    rintro r d ⟨rfl, rfl⟩
    refine ⟨congrArg Except.ok ?_, rfl⟩
    rw [List.length_cons]
    omega

/-- The chain of slot blocks is counted, and the record positions in it. -/
theorem acts_slotChainSize {head : BlockPos} {slots : List (BlockPos × List Nat)}
    {blocks records bound : Nat} (h : Chain Prod.fst c.Lists head slots)
    (hnull : ∀ a ∈ slots, a.1 ≠ .null) (hrecords : ∀ a ∈ slots, a.2 ≠ [])
    (hbound : slots.length ≤ bound) :
    Program.Acts t.layout (t.slotChainSize check blocks records bound head) c fun r d =>
      r = .ok (blocks + slots.length, records + (slots.flatMap Prod.snd).length) ∧ d = c := by
  induction slots generalizing head blocks records bound with
  | nil =>
    unfold slotChainSize
    rw [show head.isNull = true from BlockPos.isNull_iff.mpr h, if_pos rfl]
    exact Program.acts_pure ⟨rfl, rfl⟩
  | cons a slots ih =>
    obtain ⟨rfl, next, hnext, hrest⟩ := h
    obtain ⟨bound, rfl⟩ : ∃ n, bound = n + 1 := ⟨bound - 1, by simp at hbound; omega⟩
    have hholds : (check && a.2.isEmpty) = false := by
      simp [hrecords a List.mem_cons_self]
    unfold slotChainSize
    rw [BlockPos.isNull_eq_false (hnull _ List.mem_cons_self), if_neg Bool.false_ne_true]
    refine Program.acts_loadSlots hnext ?_
    simp only [hholds, Bool.false_eq_true, if_false]
    refine (Program.Acts.mono (ih hrest (fun b hb => hnull b (List.mem_cons_of_mem _ hb))
      (fun b hb => hrecords b (List.mem_cons_of_mem _ hb)) (Nat.le_of_succ_le_succ hbound))
      ?_).holding
    rintro r d ⟨rfl, rfl⟩
    refine ⟨congrArg Except.ok (Prod.ext ?_ ?_), rfl⟩
    · simp only [List.length_cons]
      omega
    · simp only [List.flatMap_cons, List.length_append]
      omega

/-! ## The whole file -/

/-- A survey of a file that is as planned counts what is planned, and every check is passed. -/
theorem acts_survey {p : Plan} (hl : t.layout.Workable) (hp : p.Holds t.layout c)
    (hasc : t.Ascending p.entries) (hlevels : p.levels ≤ maxLevels + 1) :
    Program.Acts t.layout (t.survey check) c fun r d => d = c ∧ ∃ stats : IndexStats, r = .ok stats ∧
      stats.height = p.levels ∧ stats.entries = p.entries.length ∧
      stats.leafBlocks + stats.branchBlocks = p.blocks.length ∧ stats.freeBlocks = p.free.length ∧
      stats.slotBlocks = p.slots.length ∧ stats.freeSlots = p.records.length ∧
      stats.totalBlocks = 1 + p.blocks.length + p.free.length + p.slots.length := by
  have hlength := hp.ledger.length_eq hl
  have hnull : ∀ q ∈ p.blocks ++ (p.free ++ p.slots.map Prod.fst), q ≠ .null :=
    fun q hq => hp.ledger.ne_null hq
  have htree : Program.Acts t.layout (t.surveyTree check c.pointers.root) c fun r d => d = c ∧
      ∃ s, r = .ok s ∧ s.leafDepth.getD 0 = p.levels ∧ s.entries = p.entries.length ∧
        s.leaves + s.branches = p.blocks.length := by
    obtain ⟨levels, tree, free, slots⟩ := p
    unfold surveyTree
    cases tree with
    | none =>
      obtain ⟨rfl, hroot⟩ := hp.tree
      rw [hroot]
      exact Program.acts_pure ⟨rfl, {}, rfl, rfl, rfl, rfl⟩
    | some x =>
      obtain ⟨depth, rfl, honBoard, hfull, hroot⟩ := hp.tree
      have hblocks : ∀ q ∈ x.blocks, q ≠ .null := fun q hq => hnull q (List.mem_append_left _ hq)
      rw [hroot, BlockPos.isNull_eq_false (hblocks _ honBoard.pos_mem), if_neg Bool.false_ne_true]
      refine Program.Acts.mono (acts_surveyNode honBoard hfull hlevels hblocks ?_ ?_) ?_
      · simpa [Plan.entries] using hasc
      · exact nofun
      · rintro r d ⟨hd, s, hr, hadds⟩
        refine ⟨hd, s, hr, ?_, ?_, ?_⟩
        · rw [hadds.leafDepth]
          exact Nat.add_comm 1 depth
        · simpa [Plan.entries] using hadds.entries
        · simpa [Plan.blocks] using hadds.blocks
  unfold survey
  refine Program.acts_getPointers.bind_ok ?_
  refine htree.bind ?_ ?_
  · rintro _ _ ⟨-, _, hr, -⟩
    cases hr
  rintro s d ⟨rfl, s', hr, hdepth, hentries, hblocks⟩
  cases hr
  refine (acts_freeChainLength hp.ledger.deleted (fun q hq => hnull q ?_) (by omega)).bind_ok ?_
  · exact List.mem_append_right _ (List.mem_append_left _ hq)
  refine (acts_slotChainSize hp.ledger.listed (fun a ha => hnull a.1 ?_)
    (fun a ha => (hp.ledger.records a ha).1) (by omega)).bind_ok ?_
  · exact List.mem_append_right _ (List.mem_append_right _ (List.mem_map_of_mem ha))
  have htotal : 1 + s.leaves + s.branches + (0 + p.free.length) + (0 + p.slots.length) =
      d.pointers.highWater.offset / t.layout.blockSize + 1 := by omega
  simp only [htotal, bne_self_eq_false, Bool.and_false, Bool.false_eq_true, if_false]
  refine Program.acts_pure ⟨rfl, _, rfl, hdepth, hentries, hblocks, Nat.zero_add _, Nat.zero_add _,
    Nat.zero_add _, ?_⟩
  dsimp only
  omega

end Tree

end PagedIndex
