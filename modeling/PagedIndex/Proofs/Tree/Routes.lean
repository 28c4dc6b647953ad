import Mathlib.Algebra.Order.BigOperators.Group.List
import Mathlib.Algebra.Order.Group.Nat
import Mathlib.Data.List.Chain
import PagedIndex.Proofs.Session.Visits
import PagedIndex.Proofs.Tree.Contents

/-!
# The routes of searches

Links may lead anywhere: in circles, to blocks that others lead to as well, or to blocks of another
kind. A search or a move goes down or back up along links, a few times, and never through more
blocks than a tree may have levels.

## Main definitions

* `Board.Legs` — blocks that are visited on a few ways down or up.
* `Program.Visiting` — what is true of the visits of a program.

## Main statements

* `Tree.visiting_locate` — a search.
* `Tree.visiting_find`, `Tree.visiting_findLast`, `Tree.visiting_next`, `Tree.visiting_previous` —
  moves.
-/

namespace PagedIndex

namespace Board

variable {c : Board} {pos q : BlockPos} {ps qs : List BlockPos} {m n : Nat}

/-! ## Ways -/

/-- Where the links of the tree block at a position lead. -/
def links (c : Board) (pos : BlockPos) : List BlockPos :=
  match c.cells pos with
  | some (.node n) => n.links
  | _ => []

/-- Blocks each of which is linked from the one in front, no more than a tree may have levels. -/
def Descends (c : Board) (ps : List BlockPos) : Prop :=
  ps.IsChain (fun q q' => q' ∈ c.links q) ∧ ps.length ≤ maxLevels + 1

/-- Blocks that are visited on at most `n` ways down or back up. -/
def Legs (c : Board) (n : Nat) (ps : List BlockPos) : Prop :=
  ∃ legs : List (List BlockPos), ps = legs.flatten ∧ legs.length ≤ n ∧
    ∀ leg ∈ legs, c.Descends leg ∨ c.Descends leg.reverse

theorem Descends.nil : c.Descends [] := ⟨.nil, Nat.zero_le _⟩

theorem Descends.singleton (pos : BlockPos) : c.Descends [pos] :=
  ⟨.singleton _, Nat.succ_le_succ (Nat.zero_le _)⟩

namespace Legs

theorem nil : c.Legs n [] := ⟨[], rfl, Nat.zero_le _, nofun⟩

theorem mono (h : c.Legs m ps) (hmn : m ≤ n) : c.Legs n ps := by
  obtain ⟨legs, hps, hlegs, hall⟩ := h
  exact ⟨legs, hps, Nat.le_trans hlegs hmn, hall⟩

theorem append (h : c.Legs m ps) (h' : c.Legs n qs) : c.Legs (m + n) (ps ++ qs) := by
  obtain ⟨legs, rfl, hlegs, hall⟩ := h
  obtain ⟨legs', rfl, hlegs', hall'⟩ := h'
  refine ⟨legs ++ legs', by simp, ?_, fun leg hleg => ?_⟩
  · rw [List.length_append]
    omega
  · exact (List.mem_append.mp hleg).elim (hall leg) (hall' leg)

/-- One way down. -/
theorem of_descends (h : c.Descends ps) : c.Legs 1 ps :=
  ⟨[ps], by simp, Nat.le_refl _, by simpa using .inl h⟩

/-- One way back up. -/
theorem of_ascends (h : c.Descends ps.reverse) : c.Legs 1 ps :=
  ⟨[ps], by simp, Nat.le_refl _, by simpa using .inr h⟩

theorem singleton (pos : BlockPos) : c.Legs 1 [pos] := of_descends (.singleton pos)

/-- A block and then more. -/
theorem cons (h : c.Legs n ps) : c.Legs (n + 1) (pos :: ps) := by
  have := (singleton pos).append h
  rwa [Nat.add_comm] at this

/-- So there are not many of them. -/
theorem length_le (h : c.Legs n ps) : ps.length ≤ n * (maxLevels + 1) := by
  obtain ⟨legs, rfl, hlegs, hall⟩ := h
  have hone : ∀ leg ∈ legs, leg.length ≤ maxLevels + 1 := fun leg hleg => by
    rcases hall leg hleg with h | h
    · exact h.2
    · simpa using h.2
  calc legs.flatten.length = (legs.map List.length).sum := List.length_flatten
    _ ≤ legs.length * (maxLevels + 1) := by
      simpa using List.sum_le_card_nsmul (legs.map List.length) (maxLevels + 1) (by simpa using hone)
    _ ≤ n * (maxLevels + 1) := Nat.mul_le_mul_right _ hlegs

end Legs

/-- A way down from a block, through at most `n` blocks. -/
structure Down (c : Board) (pos : BlockPos) (n : Nat) (ps : List BlockPos) : Prop where
  chain : ps.IsChain fun q q' => q' ∈ c.links q
  head : ∀ q ∈ ps.head?, q = pos
  length : ps.length ≤ n

namespace Down

theorem nil : c.Down pos n [] := ⟨.nil, by simp, Nat.zero_le _⟩

theorem singleton : c.Down pos (n + 1) [pos] :=
  ⟨.singleton _, by simp, Nat.succ_le_succ (Nat.zero_le _)⟩

/-- A block is visited and then one that it links to. -/
theorem cons (h : c.Down q n ps) (hq : q ∈ c.links pos) : c.Down pos (n + 1) (pos :: ps) := by
  refine ⟨h.chain.cons fun q' hq' => ?_, by simp, Nat.succ_le_succ h.length⟩
  rw [h.head q' hq']
  exact hq

theorem legs (h : c.Down pos (maxLevels + 1) ps) : c.Legs 1 ps := .of_descends ⟨h.chain, h.length⟩

end Down

/-- A way down from a block, through at most `n` blocks, and then a way back up. -/
def Round (c : Board) (pos : BlockPos) (n : Nat) (ps : List BlockPos) : Prop :=
  ∃ front back, ps = front ++ back ∧ c.Down pos n front ∧ c.Descends back.reverse

namespace Round

theorem nil : c.Round pos n [] := ⟨[], [], rfl, .nil, .nil⟩

theorem singleton : c.Round pos (n + 1) [pos] := ⟨[pos], [], rfl, .singleton, .nil⟩

theorem of_ascends (h : c.Descends ps.reverse) : c.Round pos (n + 1) (pos :: ps) :=
  ⟨[pos], ps, rfl, .singleton, h⟩

theorem cons (h : c.Round q n ps) (hq : q ∈ c.links pos) : c.Round pos (n + 1) (pos :: ps) := by
  obtain ⟨front, back, rfl, hdown, hup⟩ := h
  exact ⟨pos :: front, back, rfl, hdown.cons hq, hup⟩

theorem legs (h : c.Round pos (maxLevels + 1) ps) : c.Legs 2 ps := by
  obtain ⟨front, back, rfl, hdown, hup⟩ := h
  exact hdown.legs.append (.of_ascends hup)

end Round

end Board

/-! ## Visits of programs -/

namespace Program

variable {α β : Type} {blocks : BlockPos → Option Bytes} {p : Pointers} {l : Layout} {role : Role}
  {pos : BlockPos} {program : Program α} {f : α → Program β} {Q Q' : List BlockPos → Option α → Prop}
  {R : List BlockPos → Option β → Prop}

/-- Of the visits of a program on given blocks, and of the value it has come to, `Q` is true. -/
def Visiting (blocks : BlockPos → Option Bytes) (p : Pointers) (Q : List BlockPos → Option α → Prop)
    (program : Program α) : Prop := ∀ ps o, program.Visits blocks p ps o → Q ps o

/-- Three parts one after the other. -/
theorem bind_bind {γ : Type} (program : Program α) (f : α → Program β) (g : β → Program γ) :
    program >>= f >>= g = program >>= fun a => f a >>= g := by
  show (program.bind f).bind g = program.bind fun a => (f a).bind g
  induction program with
  | done | fail => rfl
  | load role pos read next ih => exact congrArg (load role pos read) ih
  | view role next ih => exact congrArg (view role) (funext ih)
  | edit role change next ih => exact congrArg (edit role change) ih
  | pointers next ih => exact congrArg pointers (funext ih)
  | setPointers p next ih => exact congrArg (setPointers p) ih

theorem Visiting.mono (h : program.Visiting blocks p Q) (hQ : ∀ ps o, Q ps o → Q' ps o) :
    program.Visiting blocks p Q' := fun ps o hv => hQ ps o (h ps o hv)

theorem Visiting.bind (h : program.Visiting blocks p Q) (hprogram : program.Reader)
    (hstopped : ∀ ps, Q ps none → R ps none)
    (hf : ∀ a front, Q front (some a) → (f a).Visiting blocks p fun back o => R (front ++ back) o) :
    (program >>= f).Visiting blocks p R := by
  intro ps o hv
  rcases hprogram.visits_bind hv with ⟨rfl, hfirst⟩ | ⟨a, front, back, rfl, hfront, hback⟩
  · exact hstopped ps (h ps none hfirst)
  · exact hf a front (h front (some a) hfront) back o hback

theorem visiting_pure {a : α} (hstopped : Q [] none) (ha : Q [] (some a)) :
    (pure a : Program α).Visiting blocks p Q := by
  intro ps o hv
  cases hv with
  | done => exact ha
  | stopped => exact hstopped

theorem visiting_fail {e : Error} (hstopped : Q [] none) :
    (fail e : Program α).Visiting blocks p Q := by
  intro ps o hv
  cases hv
  exact hstopped

theorem visiting_getPointers_bind {f : Pointers → Program β} (hstopped : R [] none)
    (hf : (f p).Visiting blocks p R) : (getPointers >>= f).Visiting blocks p R := by
  intro ps o hv
  cases hv with
  | stopped => exact hstopped
  | pointers hv => exact hf ps o hv

/-- One block is visited, unless the program stops before. -/
theorem visiting_read_bind {f : Bytes → Program β} (hstopped : R [] none) (hrefused : R [pos] none)
    (hf : ∀ x, blocks pos = some x → (f x).Visiting blocks p fun back o => R (pos :: back) o) :
    (do loadBlock role pos; f (← image role)).Visiting blocks p R := by
  intro ps o hv
  cases hv with
  | stopped => exact hstopped
  | refused => exact hrefused
  | read hx hv => exact hf _ hx _ _ hv

theorem visiting_ofExcept_bind {x : Except Error α} (hstopped : R [] none)
    (hf : ∀ a, x = .ok a → (f a).Visiting blocks p R) : (ofExcept x >>= f).Visiting blocks p R := by
  cases x with
  | ok a => exact hf a rfl
  | error e => exact visiting_fail hstopped

/-- A tree block is visited, and the program goes on with it. -/
theorem visiting_loadNode_bind {f : Node → Program β} (hstopped : R [] none) (hrefused : R [pos] none)
    (hf : ∀ n, (Board.read l blocks p).cells pos = some (.node n) →
      (f n).Visiting blocks p fun back o => R (pos :: back) o) :
    (loadNode l role pos >>= f).Visiting blocks p R := by
  unfold loadNode
  by_cases hnull : pos = .null
  · subst hnull
    exact visiting_fail hstopped
  · rw [BlockPos.isNull_eq_false hnull]
    show Visiting blocks p R (do
      loadBlock role pos
      let x ← image role
      ofExcept (Node.decode l pos x) >>= f)
    exact visiting_read_bind hstopped hrefused fun x hx => visiting_ofExcept_bind hrefused fun n hn =>
      hf n (Board.cells_read_eq_some_iff.mpr ⟨hnull, x, hx, Cell.read?_eq_node_iff.mpr hn⟩)

theorem visiting_loadLeaf_bind {f : List Entry → Program β} (hstopped : R [] none)
    (hrefused : R [pos] none)
    (hf : ∀ es, (Board.read l blocks p).cells pos = some (.node (.leaf es)) →
      (f es).Visiting blocks p fun back o => R (pos :: back) o) :
    (loadLeaf l role pos >>= f).Visiting blocks p R := by
  unfold loadLeaf
  rw [bind_bind]
  refine visiting_loadNode_bind hstopped hrefused fun n hn => ?_
  cases n with
  | leaf es => exact hf es hn
  | branch b => exact visiting_fail hrefused

theorem visiting_loadBranch_bind {f : Branch → Program β} (hstopped : R [] none)
    (hrefused : R [pos] none)
    (hf : ∀ b, (Board.read l blocks p).cells pos = some (.node (.branch b)) →
      (f b).Visiting blocks p fun back o => R (pos :: back) o) :
    (loadBranch l role pos >>= f).Visiting blocks p R := by
  unfold loadBranch
  rw [bind_bind]
  refine visiting_loadNode_bind hstopped hrefused fun n hn => ?_
  cases n with
  | leaf es => exact visiting_fail hrefused
  | branch b => exact hf b hn

/-! ## Parts of searches and moves -/

section Legs

variable {c : Board} {m n : Nat} {V : α → Prop}

theorem legs_pure {a : α} : (pure a : Program α).Visiting blocks p fun ps _ => c.Legs n ps :=
  visiting_pure .nil .nil

/-- Some ways, and then those that a value of which `V` is true asks for. -/
theorem legs_bind_of (hprogram : program.Reader)
    (h : program.Visiting blocks p fun ps o => c.Legs m ps ∧ ∀ a, o = some a → V a)
    (hf : ∀ a, V a → (f a).Visiting blocks p fun ps _ => c.Legs n ps) :
    (program >>= f).Visiting blocks p fun ps _ => c.Legs (m + n) ps :=
  h.bind hprogram (fun _ hps => hps.1.mono (Nat.le_add_right m n)) fun a _ hfront =>
    (hf a (hfront.2 a rfl)).mono fun _ _ hback => hfront.1.append hback

theorem legs_bind (hprogram : program.Reader)
    (h : program.Visiting blocks p fun ps _ => c.Legs m ps)
    (hf : ∀ a, (f a).Visiting blocks p fun ps _ => c.Legs n ps) :
    (program >>= f).Visiting blocks p fun ps _ => c.Legs (m + n) ps :=
  legs_bind_of hprogram (h.mono fun _ _ hps => ⟨hps, fun _ _ => trivial⟩) fun a _ => hf a

end Legs

end Program

/-! ## Searches -/

/-- Every place is somewhere. -/
theorem Descent.in_true (d : Descent) : d.In fun _ => True :=
  ⟨trivial, fun _ _ => trivial, fun _ _ => trivial⟩

/-- A place whose block, if it is a leaf, was come to along links. -/
def Descent.Laid (c : Board) (d : Descent) : Prop :=
  d.onBranch = false → c.Descends (d.block :: d.path.map Step.block).reverse

namespace Tree

open Program

variable {t : Tree} {blocks : BlockPos → Option Bytes} {p : Pointers} {c : Board}
  {pos : BlockPos} {levels : Nat} {d : Descent} {path : List Step} {target current : Entry}
  {exact : Bool} {cursor : Cursor}

section Board

variable (hc : Board.read t.layout blocks p = c)
include hc

theorem links_eq {n : Node} (hn : (Board.read t.layout blocks p).cells pos = some (.node n)) :
    c.links pos = n.links := by
  subst hc
  unfold Board.links
  rw [hn]

/-- A branch links to its children. -/
theorem mem_links {b : Branch} {q : BlockPos}
    (hb : (Board.read t.layout blocks p).cells pos = some (.node (.branch b)))
    (hq : q ∈ b.children) : q ∈ c.links pos := by
  rw [links_eq hc hb]
  exact hq

/-- A way down along first links. -/
theorem visiting_leftmostLeaf : (t.leftmostLeaf levels pos).Visiting blocks p fun ps _ =>
    c.Down pos levels ps := by
  induction levels generalizing pos with
  | zero => exact visiting_fail .nil
  | succ levels ih =>
    refine visiting_loadNode_bind .nil .singleton fun n hn => ?_
    match n with
    | .branch b => exact ih.mono fun ps _ h => h.cons (mem_links hc hn b.first_mem_children)
    | .leaf [] => exact visiting_fail .singleton
    | .leaf (_ :: _) => exact visiting_pure .singleton .singleton

/-- A way down along last links. -/
theorem visiting_rightmostLeaf : (t.rightmostLeaf levels pos).Visiting blocks p fun ps _ =>
    c.Down pos levels ps := by
  induction levels generalizing pos with
  | zero => exact visiting_fail .nil
  | succ levels ih =>
    refine visiting_loadNode_bind .nil .singleton fun n hn => ?_
    match n with
    | .branch b => exact ih.mono fun ps _ h => h.cons (mem_links hc hn b.lastChild_mem_children)
    | .leaf [] => exact visiting_fail .singleton
    | .leaf (_ :: _) => exact visiting_pure .singleton .singleton

omit hc in
/-- On the way up the branches are visited in turn, and the place is one of them or stays. -/
theorem visiting_nextSeparator : (t.nextSeparator d path).Visiting blocks p fun ps o =>
    ps <+: path.map Step.block ∧ ∀ d', o = some d' → d'.onBranch = true ∨
      d'.block = d.block ∧ d'.path = d.path := by
  induction path with
  | nil => exact visiting_pure ⟨List.nil_prefix, nofun⟩ ⟨List.nil_prefix, by simp⟩
  | cons step outer ih =>
    have hone : [step.block] <+: (step :: outer).map Step.block := by simp
    refine visiting_loadBranch_bind ⟨List.nil_prefix, nofun⟩ ⟨hone, nofun⟩ fun b _ => ?_
    split
    · exact visiting_pure ⟨hone, nofun⟩ ⟨hone, by simp⟩
    · exact ih.mono fun ps o h => ⟨List.cons_prefix_cons.mpr ⟨rfl, h.1⟩, h.2⟩

omit hc in
/-- A leaf that is left behind its last entry is visited again, and then branches above it. -/
theorem visiting_successor_of_leaf (hleaf : d.onBranch = false) (hd : d.Laid c) :
    (t.successor d).Visiting blocks p fun ps o => c.Descends ps.reverse ∧
      ∀ d', o = some d' → d'.Laid c := by
  have hway := hd hleaf
  have hpart : ∀ ps, ps <+: d.block :: d.path.map Step.block → c.Descends ps.reverse := by
    intro ps hps
    have hsuffix := List.reverse_suffix.mpr hps
    exact ⟨hway.1.suffix hsuffix, Nat.le_trans hsuffix.length_le hway.2⟩
  have hone := hpart [d.block] (by simp)
  unfold successor
  rw [hleaf]
  refine visiting_loadLeaf_bind ⟨.nil, nofun⟩ ⟨hone, nofun⟩ fun es _ => ?_
  split
  · refine visiting_pure ⟨hone, nofun⟩ ⟨hone, fun d' hd' => ?_⟩
    cases hd'
    exact fun _ => hway
  · refine visiting_nextSeparator.mono fun ps o h =>
      ⟨hpart _ (List.cons_prefix_cons.mpr ⟨rfl, h.1⟩), ?_⟩
    intro d' hd' hleaf'
    rcases h.2 d' hd' with hbranch | ⟨hblock, hpath⟩
    · rw [hbranch] at hleaf'
      cases hleaf'
    · rw [hblock, hpath]
      exact hway

/-- Behind a separator there is the first leaf under the link that follows. -/
theorem visiting_successor (hd : d.Laid c) :
    (t.successor d).Visiting blocks p fun ps _ => c.Legs 2 ps := by
  cases hbranch : d.onBranch with
  | false =>
    exact (visiting_successor_of_leaf hbranch hd).mono fun ps _ h =>
      (Board.Legs.of_ascends h.1).mono (by decide)
  | true =>
    unfold successor
    rw [hbranch]
    refine visiting_loadBranch_bind .nil (Board.Legs.singleton _ |>.mono (by decide)) fun b _ => ?_
    split
    · exact visiting_fail (Board.Legs.singleton _ |>.mono (by decide))
    · refine (legs_bind (n := 0) (walks_leftmostLeaf trivial).reader
        ((visiting_leftmostLeaf hc).mono fun _ _ h => h.legs)
        fun _ => legs_pure).mono fun ps _ h => h.cons

/-- In front of a separator there is the last leaf under its link. -/
theorem visiting_predecessor : (t.predecessor d).Visiting blocks p fun ps _ => c.Legs 2 ps := by
  unfold predecessor
  split
  · refine visiting_loadBranch_bind .nil (Board.Legs.singleton _ |>.mono (by decide)) fun b _ => ?_
    split
    · exact visiting_fail (Board.Legs.singleton _ |>.mono (by decide))
    · refine (legs_bind (n := 0) (walks_rightmostLeaf trivial).reader
        ((visiting_rightmostLeaf hc).mono fun _ _ h => h.legs)
        fun _ => legs_pure).mono fun ps _ h => h.cons
  · split
    · exact legs_pure
    · split
      · exact legs_pure
      · exact legs_pure

omit hc in
theorem visiting_entryAt : (t.entryAt d).Visiting blocks p fun ps _ => c.Legs 1 ps := by
  refine visiting_loadNode_bind .nil (.singleton _) fun n _ => ?_
  dsimp only
  split
  · exact visiting_pure (.singleton _) (.singleton _)
  · exact visiting_fail (.singleton _)

omit hc in
/-- Branches on the way to a block, the deepest in front, and the block as a place. -/
theorem laid_of_isChain {step : List Step} {block : BlockPos}
    (hchain : (block :: step.map Step.block).IsChain fun q q' => q ∈ c.links q')
    (hlength : step.length ≤ maxLevels) : c.Descends (block :: step.map Step.block).reverse := by
  refine ⟨List.isChain_reverse.mpr hchain, ?_⟩
  rw [List.length_reverse, List.length_cons, List.length_map]
  exact Nat.succ_le_succ hlength

omit hc in
theorem visiting_endInLeaf {trail : Trail} {s : Scan} {size : Nat}
    (hway : c.Descends (pos :: trail.path.map Step.block).reverse) :
    (t.endInLeaf trail pos s size).Visiting blocks p fun ps o =>
      c.Descends ps.reverse ∧ ∀ d', o = some d' → d'.Laid c := by
  have hdone : ∀ d : Descent, d.Laid c → Visiting blocks p (fun ps o =>
      c.Descends ps.reverse ∧ ∀ d', o = some d' → d'.Laid c) (pure d) := fun d hd => by
    refine visiting_pure ⟨.nil, nofun⟩ ⟨.nil, fun d' hd' => ?_⟩
    cases hd'
    exact hd
  unfold endInLeaf
  dsimp only
  split
  · exact hdone _ (by simp [Descent.Laid])
  · split
    · exact hdone _ fun _ => hway
    · exact hdone _ fun _ => hway
    · split
      · exact hdone _ fun _ => hway
      · exact hdone _ fun _ => hway
    · split
      · exact hdone _ fun _ => hway
      · refine (visiting_successor_of_leaf rfl fun _ => hway).bind
          (walks_successor (Descent.in_true _)).reader
          (fun ps h => ⟨h.1, nofun⟩) fun d' front h => ?_
        refine visiting_pure ⟨by simpa using h.1, nofun⟩ ⟨by simpa using h.1, fun d'' hd'' => ?_⟩
        cases hd''
        exact h.2 d' rfl

/-- Branches are visited down to a leaf, and from there some of them back up. -/
theorem visiting_descend {trail : Trail}
    (hchain : (pos :: trail.path.map Step.block).IsChain fun q q' => q ∈ c.links q')
    (hlevels : trail.path.length + levels ≤ maxLevels) :
    (t.descend target exact levels trail pos).Visiting blocks p fun ps o =>
      c.Round pos (levels + 1) ps ∧ ∀ d', o = some d' → d'.Laid c := by
  have hway := laid_of_isChain hchain (by omega)
  induction levels generalizing trail pos with
  | zero =>
    unfold descend
    refine visiting_loadNode_bind ⟨.nil, by simp⟩ ⟨.singleton, by simp⟩ fun n hn => ?_
    cases n with
    | leaf es => exact (visiting_endInLeaf hway).mono fun ps o h => ⟨.of_ascends h.1, h.2⟩
    | branch b => exact visiting_fail ⟨.singleton, by simp⟩
  | succ levels ih =>
    unfold descend
    refine visiting_loadNode_bind ⟨.nil, by simp⟩ ⟨.singleton, by simp⟩ fun n hn => ?_
    cases n with
    | leaf es => exact (visiting_endInLeaf hway).mono fun ps o h => ⟨.of_ascends h.1, h.2⟩
    | branch b =>
      dsimp only
      split
      · refine visiting_pure ⟨.singleton, by simp⟩ ⟨.singleton, fun d' hd' => ?_⟩
        cases hd'
        exact fun h => by cases h
      · split
        · next child hchild =>
          have hlink := mem_links hc hn (b.mem_children_of_child? hchild)
          have hfurther := List.IsChain.cons_cons hlink hchain
          refine (ih hfurther ?_ (laid_of_isChain hfurther ?_)).mono fun ps o h =>
            ⟨h.1.cons hlink, h.2⟩
          · rw [List.length_cons]
            omega
          · rw [List.length_cons]
            omega
        · exact visiting_fail ⟨.singleton, by simp⟩

theorem visiting_locate : (t.locate target exact).Visiting blocks p fun ps o =>
    c.Legs 2 ps ∧ ∀ d, o = some d → d.Laid c := by
  refine visiting_getPointers_bind ⟨.nil, nofun⟩ ?_
  show Visiting blocks p _ (if p.root.isNull then _ else _)
  split
  · refine visiting_pure ⟨.nil, nofun⟩ ⟨.nil, fun d hd => ?_⟩
    cases hd
    exact fun _ => .singleton _
  · exact (visiting_descend hc (.singleton _) (Nat.le_of_eq (Nat.zero_add _))).mono fun ps o h =>
      ⟨h.1.legs, h.2⟩

/-! ## Moves -/

omit hc in
theorem visiting_settle : (t.settle cursor d).Visiting blocks p fun ps _ => c.Legs 1 ps := by
  unfold settle
  split
  · exact legs_bind (n := 0) (walks_entryAt (Descent.in_true d)).reader
      visiting_entryAt fun _ => legs_pure
  · exact legs_pure

/-- A search, and the entry at the place. -/
theorem visiting_find (key : Bytes) :
    (t.find cursor key).Visiting blocks p fun ps _ => c.Legs 3 ps := by
  refine legs_bind_of (n := 1) (walks_locate trivial).reader (visiting_locate hc) fun d _ => ?_
  split
  · exact visiting_settle
  · exact legs_pure

/-- A search, the place in front, and the entry there. -/
theorem visiting_findLast (padded : Bytes) (length : Nat) :
    (t.findLast padded length).Visiting blocks p fun ps _ => c.Legs 5 ps := by
  refine legs_bind_of (n := 3) (walks_locate trivial).reader (visiting_locate hc) fun d _ => ?_
  dsimp only
  have hland : ∀ d : Descent, Visiting blocks p (fun ps _ => c.Legs 1 ps) (do
      if d.state = .onKey then
        let e ← t.entryAt d
        if t.collation.compare (e.key.take (min length padded.length))
            (padded.take (min length padded.length)) = .eq then
          return Cursor.land e d.block
        else return Cursor.park .between ⟨padded, t.layout.maxRecord⟩
      else return Cursor.park .between ⟨padded, t.layout.maxRecord⟩) := fun d => by
    split
    · refine legs_bind (n := 0) (walks_entryAt (Descent.in_true d)).reader
        visiting_entryAt fun e => ?_
      split
      · exact legs_pure
      · exact legs_pure
    · exact legs_pure
  split
  · exact legs_pure
  · split
    · exact legs_bind (walks_predecessor (Descent.in_true d)).reader
        (visiting_predecessor hc) fun d => hland d
    · exact (hland d).mono fun ps _ h => h.mono (by decide)

/-- The way to the first leaf, and its first entry. -/
theorem visiting_first : (t.first cursor).Visiting blocks p fun ps _ => c.Legs 2 ps := by
  refine visiting_getPointers_bind .nil ?_
  show Visiting blocks p _ (if p.root.isNull then _ else _)
  split
  · exact legs_pure
  · exact legs_bind (walks_leftmostLeaf trivial).reader
      ((visiting_leftmostLeaf hc).mono fun _ _ h => h.legs)
      fun _ => visiting_settle

/-- The way to the last leaf, and its last entry. -/
theorem visiting_last : (t.last cursor).Visiting blocks p fun ps _ => c.Legs 2 ps := by
  refine visiting_getPointers_bind .nil ?_
  show Visiting blocks p _ (if p.root.isNull then _ else _)
  split
  · exact legs_pure
  · exact legs_bind (walks_rightmostLeaf trivial).reader
      ((visiting_rightmostLeaf hc).mono fun _ _ h => h.legs)
      fun _ => visiting_settle

/-- The block of a hint, twice if it is a tree block, and the first leaf under one of its links. -/
theorem visiting_nextFromHint {hint : BlockPos} :
    (t.nextFromHint hint current).Visiting blocks p fun ps _ => c.Legs 3 ps := by
  have hone : c.Legs 3 [hint] := (Board.Legs.singleton _).mono (by decide)
  have htwo : c.Legs 3 [hint, hint] := (Board.Legs.singleton hint).cons.mono (by decide)
  refine visiting_getPointers_bind .nil ?_
  split
  · exact legs_pure
  · refine visiting_read_bind .nil hone fun x _ => ?_
    dsimp only
    split
    · exact visiting_pure hone hone
    · refine visiting_loadNode_bind hone htwo fun n _ => ?_
      cases n with
      | leaf es =>
        dsimp only
        split
        · exact visiting_pure htwo htwo
        · exact visiting_pure htwo htwo
      | branch b =>
        dsimp only
        split
        · exact (legs_bind (n := 0) (walks_leftmostLeaf trivial).reader
            ((visiting_leftmostLeaf hc).mono fun _ _ h => h.legs)
            fun _ => legs_pure).mono fun ps _ h => h.cons.cons
        · exact visiting_pure htwo htwo

theorem visiting_nextBySearch :
    (t.nextBySearch cursor current).Visiting blocks p fun ps _ => c.Legs 5 ps := by
  refine legs_bind_of (n := 3) (walks_locate trivial).reader (visiting_locate hc) fun d hd => ?_
  have hsettle : ∀ d', (t.settle cursor d').Visiting blocks p fun ps _ => c.Legs 3 ps := fun d' =>
    visiting_settle.mono fun ps _ h => h.mono (by decide)
  dsimp only
  split
  · exact legs_bind (walks_successor (Descent.in_true d)).reader
      (visiting_successor hc hd) fun _ => visiting_settle
  · exact hsettle { d with state := .onKey }
  · exact hsettle { d with state := if d.block.isNull then .afterLast else .onKey }
  · exact hsettle d

/-- A look at the hint, and a search if it does not help. -/
theorem visiting_next : (t.next cursor).Visiting blocks p fun ps _ => c.Legs 8 ps := by
  have hsearch : ∀ current, (t.nextBySearch cursor current).Visiting blocks p
      fun ps _ => c.Legs 5 ps := fun _ => visiting_nextBySearch hc
  unfold next
  split
  · exact legs_pure
  · dsimp only
    split
    · next hint _ =>
      refine legs_bind (n := 5) (walks_nextFromHint (.inr trivial)).reader
        (visiting_nextFromHint hc) fun o => ?_
      cases o with
      | some d => exact visiting_settle.mono fun ps _ h => h.mono (by decide)
      | none => exact hsearch _
    · exact (hsearch _).mono fun ps _ h => h.mono (by decide)
  · exact (hsearch _).mono fun ps _ h => h.mono (by decide)
  · exact (visiting_first hc).mono fun ps _ h => h.mono (by decide)

/-- A search, the place in front, and the entry there. -/
theorem visiting_previous : (t.previous cursor).Visiting blocks p fun ps _ => c.Legs 5 ps := by
  have hback : ∀ current, Visiting blocks p (fun ps _ => c.Legs 5 ps) (do
      let d ← t.locate current true
      let d ← if d.state = .beforeFirst then pure d else t.predecessor d
      t.settle cursor d) := fun current => by
    refine legs_bind_of (n := 3) (walks_locate trivial).reader (visiting_locate hc) fun d _ => ?_
    dsimp only
    split
    · exact visiting_settle.mono fun ps _ h => h.mono (by decide)
    · exact legs_bind (walks_predecessor (Descent.in_true d)).reader
        (visiting_predecessor hc) fun _ => visiting_settle
  unfold previous
  split
  · exact legs_pure
  · exact hback _
  · exact hback _
  · exact (visiting_last hc).mono fun ps _ h => h.mono (by decide)

end Board

end Tree

end PagedIndex
