/-
# Parsing what was flattened

The parser takes the encoding of some nodes off the cells in front of it exactly if there is room for
them and their names fit; what it builds is the mirrored tree, with the default cell counts.
-/
import Northport.Config.DeviceTree

namespace Northport.Config

open Lib List Option DeviceTree DtSource

/-! ### Cells and bytes -/

lemma value_toCell {v : ℕ} (hv : v < 2 ^ 32) : (toCell v).value = v := by
  simp only [toCell, Cell.value, BitVec.toNat_ofNat]
  omega

lemma length_toCells (l : List Byte) : (toCells l).length = (l.length + 3) / 4 := by
  induction l using toCells.induct with
  | case1 | case2 | case3 | case4 => simp [toCells]
  | case5 a b d e l ih =>
    simp only [toCells, length_cons, ih]
    omega

lemma cellBytes_toCells (l : List Byte) (r : List Cell) :
    ∃ pad, cellBytes (toCells l ++ r) = l ++ pad := by
  induction l using toCells.induct with
  | case1 | case2 | case3 | case4 => exact ⟨_, rfl⟩
  | case5 a b d e l ih =>
    obtain ⟨pad, hpad⟩ := ih
    exact ⟨pad, congrArg ([a, b, d, e] ++ ·) hpad⟩

variable {n : ℕ}

/-- The number of cells that some bytes take. -/
lemma alignUp_four (hn : n ≤ 2 ^ 32) : alignUp n 4 / 4 = (n + 3) / 4 := by
  rw [alignUp_eq (by decide) (by rw [wordSize]; omega), Nat.mul_div_cancel _ (by decide)]
  rfl

/-- The end of a name is found, if it is within the limit. -/
lemma memfirst_name {name : List Byte} (hname : 0 ∉ name) (rest : List Byte) (hn : 0 < n) :
    memfirst (name ++ 0 :: rest) n = min name.length n := by
  have hfind : ∀ l : List Byte, 0 ∉ l → l.findIdx (· = 0) = l.length := fun l hl =>
    findIdx_eq_length.mpr fun x hx => by
      have hne : x ≠ 0 := fun h => hl (h ▸ hx)
      simpa using hne
  rw [memfirst, if_neg hn.ne', take_append]
  rcases Nat.lt_or_ge name.length n with hlt | hge
  · obtain ⟨k, hk⟩ : ∃ k, n - name.length = k + 1 := ⟨n - name.length - 1, by omega⟩
    rw [take_of_length_le hlt.le, hk, take_succ_cons, findIdx_append, hfind _ hname,
      if_neg (lt_irrefl _), min_eq_left hlt.le]
    simp [findIdx_cons]
  · have htake : 0 ∉ name.take n := fun h => hname (mem_of_mem_take h)
    rw [Nat.sub_eq_zero_of_le hge, take_zero, append_nil, hfind _ htake, length_take,
      min_comm]

namespace DeviceTree

variable {strings : List Byte} {fuel : ℕ}

/-! ### One node, one property -/

lemma parseName_encode {name : List Byte} (hname : 0 ∉ name ∧ name.length < 2 ^ 32)
    (token : Cell) (r : List Cell) (nodes props : ℕ) :
    parseName ⟨token :: (toCells (name ++ [0]) ++ r), nodes, props⟩ =
      if 0 < nodes ∧ name.length < 1 + (toCells (name ++ [0])).length + r.length then
        some (name, ⟨r, nodes - 1, props⟩) else none := by
  obtain ⟨pad, hpad⟩ := cellBytes_toCells (name ++ [0]) r
  have hlen : (token :: (toCells (name ++ [0]) ++ r)).length =
      1 + (toCells (name ++ [0])).length + r.length := by
    rw [length_cons, length_append]
    omega
  have hmem := memfirst_name hname.1 pad
    (show 0 < 1 + (toCells (name ++ [0])).length + r.length by omega)
  simp only [parseName, tail_cons, hlen, hpad, append_assoc, singleton_append, hmem]
  by_cases hnodes : nodes = 0
  · rw [if_pos hnodes, if_neg (by omega)]
  · rw [if_neg hnodes]
    by_cases hfits : name.length < 1 + (toCells (name ++ [0])).length + r.length
    · have hcells : alignUp (name.length + 1) 4 / 4 = (toCells (name ++ [0])).length := by
        rw [alignUp_four (by omega), length_toCells, length_append, length_singleton]
      rw [min_eq_left hfits.le, if_pos hfits, if_pos ⟨Nat.pos_of_ne_zero hnodes, hfits⟩, hcells,
        take_left, drop_succ_cons, drop_left]
    · rw [min_eq_right (not_lt.mp hfits), if_neg (lt_irrefl _), if_neg fun h => hfits h.2]

lemma parseProp_encode (p : DtProperty strings) (r : List Cell) (nodes props : ℕ) :
    parseProp strings ⟨p.encode ++ r, nodes, props⟩ =
      if 0 < props then some (p.plain, ⟨r, nodes, props - 1⟩) else none := by
  obtain ⟨pad, hpad⟩ := cellBytes_toCells p.data r
  have hlimit : strings.length - p.nameOffset = (strings.drop p.nameOffset).length := by
    rw [length_drop]
  have hfind := findIdx_lt_length_of_exists (p := (· = 0)) ⟨0, p.terminated, rfl⟩
  have hmem : memfirst (strings.drop p.nameOffset) (strings.drop p.nameOffset).length =
      (strings.drop p.nameOffset).findIdx (· = 0) := by
    rw [memfirst, take_length, ite_self]
  simp only [DtProperty.encode, parseProp, cons_append, value_toCell p.offset_lt,
    value_toCell p.data_lt, hlimit, hmem, hpad, take_left]
  by_cases hprops : props = 0
  · rw [if_pos (Or.inl hprops), if_neg (by omega)]
  · have hcells : alignUp p.data.length 4 / 4 = (toCells p.data).length := by
      rw [alignUp_four p.data_lt.le, length_toCells]
    have hname : (strings.drop p.nameOffset).take ((strings.drop p.nameOffset).findIdx (· = 0)) =
        (strings.drop p.nameOffset).takeWhile (· ≠ 0) := by
      rw [takeWhile_eq_take_findIdx_not]
      simp
    rw [if_neg (by omega), if_pos (by omega), hcells, drop_left, hname]
    rfl

/-- The hooks are never reached: no character is three characters at once. -/
lemma checkForHooks_eq (node : OpenNode) (prop : List Byte × List Byte) :
    checkForHooks node prop = some node := by
  refine if_pos ?_
  by_cases h : prop.1.headD 0 = 0x23#8
  · rw [h]
    decide
  · exact Or.inl h

/-! ### Forests -/

variable {info : DtCells}

variable (info) {f : DtSource strings} in
lemma parseBody_props (ps : List (DtProperty strings)) (r : List Cell) (nodes props : ℕ)
    (node : OpenNode) (hfuel : (ps.flatMap DtProperty.encode ++ r).length < fuel) :
    (ps.length ≤ props → ∃ fuel', r.length < fuel' ∧
      parseBody strings info fuel ⟨ps.flatMap DtProperty.encode ++ r, nodes, props⟩ node =
        parseBody strings info fuel' ⟨r, nodes, props - ps.length⟩
          { node with props := (ps.map DtProperty.plain).reverse ++ node.props }) ∧
    (props < ps.length →
      parseBody strings info fuel ⟨ps.flatMap DtProperty.encode ++ r, nodes, props⟩ node = none) := by
  induction ps generalizing fuel props node with
  | nil => exact ⟨fun _ => ⟨fuel, hfuel, rfl⟩, fun h => absurd h (Nat.not_lt_zero _)⟩
  | cons p ps ih =>
    obtain ⟨fuel, rfl⟩ : ∃ f, fuel = f + 1 := ⟨fuel - 1, by omega⟩
    have hstep : parseBody strings info (fuel + 1)
        ⟨(p :: ps).flatMap DtProperty.encode ++ r, nodes, props⟩ node =
        if 0 < props then parseBody strings info fuel
          ⟨ps.flatMap DtProperty.encode ++ r, nodes, props - 1⟩
          { node with props := p.plain :: node.props }
        else none := by
      have hprop := parseProp_encode p (ps.flatMap DtProperty.encode ++ r) nodes props
      rw [flatMap_cons, append_assoc]
      rw [DtProperty.encode, cons_append] at hprop ⊢
      rw [parseBody]
      simp only [value_toCell (show FdtProp < 2 ^ 32 by decide)]
      rw [if_neg (by decide), if_neg (by decide), if_pos trivial, hprop]
      by_cases h : 0 < props
      · rw [if_pos h, if_pos h, bind_some]
        simp only [checkForHooks_eq, bind_some]
      · rw [if_neg h, if_neg h, bind_none]
    have hlen : (ps.flatMap DtProperty.encode ++ r).length < fuel := by
      rw [flatMap_cons, DtProperty.encode] at hfuel
      simp only [cons_append, append_assoc, length_cons, length_append] at hfuel ⊢
      omega
    obtain ⟨hok, hfail⟩ := ih (props - 1) { node with props := p.plain :: node.props } hlen
    rw [hstep, length_cons]
    constructor
    · intro hle
      rw [if_pos (by omega)]
      obtain ⟨fuel', hfuel', heq⟩ := hok (by omega)
      refine ⟨fuel', hfuel', heq.trans ?_⟩
      rw [Nat.sub_sub, add_comm 1, map_cons, reverse_cons, append_assoc]
      rfl
    · intro hlt
      split_ifs with hpos
      · exact hfail (by omega)
      · rfl

/-- The end of a node's body. -/
lemma parseBody_end {r : List Cell} {nodes props : ℕ} {node : OpenNode} (hfuel : 0 < fuel) :
    parseBody strings info fuel ⟨toCell FdtEndNode :: r, nodes, props⟩ node =
      some (node, ⟨r, nodes, props⟩) := by
  obtain ⟨fuel, rfl⟩ : ∃ f, fuel = f + 1 := ⟨fuel - 1, by omega⟩
  rw [parseBody]
  simp only
  rw [if_pos (value_toCell (by decide))]

/-- There is room for the nodes and properties, and the names fit. -/
def Room (f : DtSource strings) (rest nodes props : ℕ) : Prop :=
  f.nodes ≤ nodes ∧ f.props ≤ props ∧ f.NamesFit rest

/-- What parsing the nodes of a forest comes to, before other cells. -/
def Parses (strings : List Byte) (info : DtCells) (f : DtSource strings) : Prop :=
  ∀ (r : List Cell) (nodes props fuel : ℕ) (node : OpenNode), (f.encode ++ r).length < fuel →
    (Room f r.length nodes props → ∃ fuel', r.length < fuel' ∧
      parseBody strings info fuel ⟨f.encode ++ r, nodes, props⟩ node =
        parseBody strings info fuel' ⟨r, nodes - f.nodes, props - f.props⟩
          { node with child := f.mirror info node.child }) ∧
    (¬ Room f r.length nodes props →
      parseBody strings info fuel ⟨f.encode ++ r, nodes, props⟩ node = none)

/-- The properties and children of a node, up to its end. -/
lemma Parses.body (hf : Parses strings info f) (ps : List (DtProperty strings)) (r : List Cell)
    (nodes props : ℕ)
    (hfuel : (ps.flatMap DtProperty.encode ++ (f.encode ++ toCell FdtEndNode :: r)).length < fuel) :
    parseBody strings info fuel
      ⟨ps.flatMap DtProperty.encode ++ (f.encode ++ toCell FdtEndNode :: r), nodes, props⟩
      ⟨[], info, .nil⟩ =
    open Classical in
    if ps.length ≤ props ∧ Room f (r.length + 1) nodes (props - ps.length) then
      some (⟨(ps.map DtProperty.plain).reverse, info, f.mirror info .nil⟩,
        ⟨r, nodes - f.nodes, props - ps.length - f.props⟩) else none := by
  obtain ⟨hok, hfail⟩ := parseBody_props info ps (f.encode ++ toCell FdtEndNode :: r) nodes
    props ⟨[], info, .nil⟩ hfuel
  by_cases hps : ps.length ≤ props
  · obtain ⟨fuel', hfuel', heq⟩ := hok hps
    obtain ⟨hok', hfail'⟩ := hf (toCell FdtEndNode :: r) nodes (props - ps.length) fuel'
      ⟨(ps.map DtProperty.plain).reverse, info, .nil⟩ hfuel'
    rw [heq, append_nil]
    by_cases hroom : Room f (r.length + 1) nodes (props - ps.length)
    · obtain ⟨fuel'', hfuel'', heq'⟩ := hok' hroom
      rw [heq', parseBody_end (by omega), if_pos ⟨hps, hroom⟩]
    · rw [hfail' hroom, if_neg fun h => hroom h.2]
  · rw [hfail (not_le.mp hps), if_neg fun h => hps h.1]

/-- **One node**, with whatever is done with it. -/
lemma Parses.node (hf : Parses strings info f)
    (name : { l : List Byte // 0 ∉ l ∧ l.length < 2 ^ 32 }) (ps : List (DtProperty strings))
    (r : List Cell) (nodes props : ℕ) {β : Type}
    (next : List Byte → OpenNode → ParseState → Option β)
    (hfuel : ((DtSource.node name ps f .nil).encode ++ r).length ≤ fuel) :
    ((parseName ⟨(DtSource.node name ps f .nil).encode ++ r, nodes, props⟩).bind fun (name, s) =>
      (parseBody strings info fuel s ⟨[], info, .nil⟩).bind fun (inner, s) => next name inner s) =
    open Classical in
    if Room (.node name ps f .nil) r.length nodes props then
      next name.val ⟨(ps.map DtProperty.plain).reverse, info, f.mirror info .nil⟩
        ⟨r, nodes - 1 - f.nodes, props - ps.length - f.props⟩ else none := by
  obtain ⟨body, hbody⟩ : ∃ body, body = ps.flatMap DtProperty.encode ++
      (f.encode ++ toCell FdtEndNode :: r) := ⟨_, rfl⟩
  have hcells : (DtSource.node name ps f .nil).encode ++ r =
      toCell FdtBeginNode :: (toCells (name.val ++ [0]) ++ body) := by
    simp only [hbody, DtSource.encode, cons_append, append_assoc, nil_append]
  have hlen := congrArg length hcells
  simp only [length_cons, length_append] at hlen hfuel
  have hinner := hf.body ps r (nodes - 1) props (show _ < fuel by rw [← hbody]; omega)
  rw [← hbody] at hinner
  have hroom : Room (.node name ps f .nil) r.length nodes props ↔
      (0 < nodes ∧ name.val.length < 1 + (toCells (name.val ++ [0])).length + body.length) ∧
      ps.length ≤ props ∧ Room f (r.length + 1) (nodes - 1) (props - ps.length) := by
    simp only [Room, DtSource.nodes, DtSource.props, DtSource.NamesFit, add_zero, and_true]
    rw [show 1 + (DtSource.nil : DtSource strings).encode.length + r.length = r.length + 1 from
      add_comm _ _]
    constructor
    · rintro ⟨h₁, h₂, h₃, h₄⟩
      exact ⟨⟨by omega, by omega⟩, by omega, by omega, by omega, h₄⟩
    · rintro ⟨⟨h₁, h₂⟩, h₃, h₄, h₅, h₆⟩
      exact ⟨by omega, by omega, by omega, h₆⟩
  rw [hroom, hcells, parseName_encode name.2]
  by_cases hname : 0 < nodes ∧
      name.val.length < 1 + (toCells (name.val ++ [0])).length + body.length
  · rw [if_pos hname, bind_some]
    simp only
    rw [hinner]
    by_cases hchildren : ps.length ≤ props ∧ Room f (r.length + 1) (nodes - 1) (props - ps.length)
    · rw [if_pos hchildren, if_pos ⟨hname, hchildren⟩, bind_some]
    · rw [if_neg hchildren, if_neg fun h => hchildren h.2, bind_none]
  · rw [if_neg hname, if_neg fun h => hname h.1, bind_none]

/-- **The nodes of a forest are parsed** one after the other, if there is room for them. -/
lemma parses (f : DtSource strings) : Parses strings info f := by
  induction f with
  | nil =>
    refine fun r nodes props fuel node hfuel => ⟨fun _ => ⟨fuel, hfuel, rfl⟩, fun h => absurd ?_ h⟩
    exact ⟨zero_le, zero_le, trivial⟩
  | node name ps children siblings ihc ihs =>
    intro r nodes props fuel node hfuel
    obtain ⟨fuel, rfl⟩ : ∃ f, fuel = f + 1 := ⟨fuel - 1, by omega⟩
    have hcells : (DtSource.node name ps children siblings).encode ++ r =
        (DtSource.node name ps children .nil).encode ++ (siblings.encode ++ r) := by
      simp only [DtSource.encode, cons_append, append_assoc, nil_append]
    have hlen := congrArg length hcells
    simp only [length_append] at hlen hfuel
    have hpos : 0 < (DtSource.node name ps children .nil).encode.length := Nat.succ_pos _
    have hroom : Room (.node name ps children siblings) r.length nodes props ↔
        Room (.node name ps children .nil) (siblings.encode ++ r).length nodes props ∧
        Room siblings r.length (nodes - 1 - children.nodes)
          (props - ps.length - children.props) := by
      simp only [Room, DtSource.nodes, DtSource.props, DtSource.NamesFit, length_append]
      rw [show 1 + (DtSource.nil : DtSource strings).encode.length +
        (siblings.encode.length + r.length) = 1 + siblings.encode.length + r.length by
          simp only [DtSource.encode, length_nil]
          omega]
      constructor
      · rintro ⟨h₁, h₂, h₃, h₄, h₅⟩
        exact ⟨⟨by omega, by omega, by omega, h₄, trivial⟩, by omega, by omega, h₅⟩
      · rintro ⟨⟨h₁, h₂, h₃, h₄, -⟩, h₅, h₆, h₇⟩
        exact ⟨by omega, by omega, by omega, h₄, h₇⟩
    have hnode := ihc.node name ps (siblings.encode ++ r) nodes props
      (fun name inner s => parseBody strings info fuel s { node with
        child := .node name inner.props inner.info inner.child node.child })
      (show _ ≤ fuel by simp only [length_append]; omega)
    rw [DtSource.encode, cons_append] at hnode
    rw [hcells, hroom, DtSource.encode, cons_append, parseBody]
    simp only [value_toCell (show FdtBeginNode < 2 ^ 32 by decide)]
    rw [if_pos trivial, hnode]
    by_cases hfirst : Room (.node name ps children .nil) (siblings.encode ++ r).length nodes props
    · rw [if_pos hfirst]
      obtain ⟨hok, hfail⟩ := ihs r (nodes - 1 - children.nodes) (props - ps.length - children.props)
        fuel { node with
          child := .node name (ps.map DtProperty.plain).reverse info (children.mirror info .nil)
            node.child } (by rw [length_append]; omega)
      constructor
      · rintro ⟨-, hsib⟩
        obtain ⟨fuel', hfuel', heq⟩ := hok hsib
        refine ⟨fuel', hfuel', heq.trans ?_⟩
        simp only [DtSource.nodes, DtSource.props, DtSource.mirror, Nat.sub_sub, add_assoc]
      · exact fun hnot => hfail fun hsib => hnot ⟨hfirst, hsib⟩
    · rw [if_neg hfirst]
      exact ⟨fun h => absurd h.1 hfirst, fun _ => rfl⟩

/-! ### The whole block -/

/-- A block is parsed if there is room in it for everything. -/
lemma parseRoots_block (name : { l : List Byte // 0 ∉ l ∧ l.length < 2 ^ 32 })
    (ps : List (DtProperty strings)) (children : DtSource strings) (nodes props : ℕ) :
    parseRoots strings ((node name ps children .nil).block.length + 1)
      ⟨(node name ps children .nil).block, nodes, props⟩ .nil =
    open Classical in
    if Room (.node name ps children .nil) 1 nodes props then
      some ((node name ps children .nil).mirror ⟨2, 1⟩ .nil) else none := by
  obtain ⟨k, hk⟩ : ∃ k, (node name ps children .nil).block.length = k + 1 :=
    ⟨_, length_append⟩
  have hnode := (show Parses strings ⟨2, 1⟩ children from parses children).node name ps [toCell FdtEnd] nodes props
    (fun name inner s => parseRoots strings (k + 1) { s with cells := s.cells.tail }
      (.node name inner.props inner.info inner.child .nil)) hk.le
  rw [encode, cons_append] at hnode
  rw [hk, block, encode, cons_append, parseRoots]
  simp only [value_toCell (show FdtBeginNode < 2 ^ 32 by decide)]
  rw [hnode]
  rfl

/-- No phandle leads anywhere. -/
lemma findPHandle_init {host : DtHost} {cells : List Cell} {t : DeviceTree}
    (h : init host strings cells = some t) (phandle : ℕ) (node : DtForest DtCells) :
    t.findPHandle phandle ≠ some (some node) := by
  obtain ⟨-, h⟩ := ite_none_right_eq_some.mp h
  obtain ⟨root, -, rfl⟩ := map_eq_some_iff.mp h
  rw [findPHandle]
  split_ifs <;> nofun

end DeviceTree

/-! ### The rebuilt tree -/

variable {strings : List Byte}

namespace DtForest

variable {α : Type}

lemma all_congr {P Q : DtForest α → List (List Byte × List Byte) → α → Prop}
    (h : ∀ node props info, P node props info ↔ Q node props info) (t : DtForest α) :
    t.All P ↔ t.All Q := by
  rw [show P = Q from funext fun node => funext fun props => funext fun info =>
    propext (h node props info)]

lemma all_and {P Q : DtForest α → List (List Byte × List Byte) → α → Prop} (t : DtForest α) :
    t.All P ∧ t.All Q ↔ t.All fun node props info => P node props info ∧ Q node props info := by
  induction t with
  | nil => exact and_self_iff
  | node name props info child sibling ihc ihs =>
    simp only [All, ← ihc, ← ihs]
    tauto

end DtForest

namespace DtSource

lemma forget_mirror {α : Type} (info : α) (f : DtSource strings) (rest : DtForest α) :
    (f.mirror info rest).forget = f.mirror () rest.forget := by
  induction f generalizing rest with
  | nil => rfl
  | node name ps children siblings ihc ihs =>
    rw [mirror, ihs, DtForest.forget, ihc]
    rfl

/-- With the default cell counts, and without phandles, only plain trees are right. -/
lemma all_mirror_iff_plain (f : DtSource strings) (rest : DtForest DtCells)
    {P : DtForest DtCells → List (List Byte × List Byte) → DtCells → Prop}
    (hP : P = fun _ props info => ∀ p ∈ props,
      (p.1 = addressCellsName → readValue p.2 = some info.addrCells) ∧
      (p.1 = sizeCellsName → readValue p.2 = some info.sizeCells) ∧
      (p.1 = phandleName → readValue p.2 = none)) :
    (f.mirror ⟨2, 1⟩ rest).All P ↔ f.Plain ∧ rest.All P := by
  subst hP
  induction f generalizing rest with
  | nil => exact (iff_of_eq (true_and _)).symm
  | node name ps children siblings ihc ihs =>
    rw [mirror, ihs, DtForest.All, ihc, Plain]
    simp only [mem_reverse, List.mem_map, forall_exists_index, and_imp,
      forall_apply_eq_imp_iff₂, DtForest.All, and_true]
    tauto

/-- A tree with the default cell counts and no phandles is right only if it is plain. -/
lemma roundTrip_iff_plain {root : DtSource strings} {t : DeviceTree}
    (ht : t.root = root.mirror ⟨2, 1⟩ .nil)
    (hphandle : ∀ h node, t.findPHandle h ≠ some (some node)) : RoundTrip root t ↔ root.Plain := by
  have hsplit : RoundTrip root t ↔ t.root.All fun node props info =>
      (∀ p ∈ props,
        (p.1 = addressCellsName → readValue p.2 = some info.addrCells) ∧
        (p.1 = sizeCellsName → readValue p.2 = some info.sizeCells)) ∧
      ∀ p ∈ props, p.1 = phandleName →
        ∀ h, readValue p.2 = some h → t.findPHandle h = some (some node) := by
    rw [← DtForest.all_and]
    constructor
    · exact fun h => ⟨h.cells, h.phandles⟩
    · exact fun h => ⟨by rw [ht, forget_mirror]; rfl, h.1, h.2⟩
  rw [hsplit, ht]
  refine Iff.trans (DtForest.all_congr (fun node props info => ?_) _)
    ((all_mirror_iff_plain root .nil rfl).trans (iff_of_eq (and_true _)))
  constructor
  · rintro ⟨hcells, hph⟩ p hp
    refine ⟨(hcells p hp).1, (hcells p hp).2, fun hname => ?_⟩
    exact eq_none_iff_forall_ne_some.mpr fun h hh => hphandle h node (hph p hp hname h hh)
  · intro hplain
    refine ⟨fun p hp => ⟨(hplain p hp).1, (hplain p hp).2.1⟩, fun p hp hname h hh => ?_⟩
    rw [(hplain p hp).2.2 hname] at hh
    nomatch hh

lemma count_append (host : DtHost) (l r : List Cell) (token : ℕ) :
    count host (l ++ r) token =
      count host l token + count host r token :=
  countP_append

/-- On a big-endian host all tokens are counted. -/
lemma le_count {host : DtHost} (hhost : host.bigEndian = true) (f : DtSource strings) :
    f.nodes ≤ count host f.encode FdtBeginNode ∧
      f.props ≤ count host f.encode FdtProp := by
  have hcons : ∀ {v : ℕ} (l : List Cell), v < 2 ^ 32 →
      count host (toCell v :: l) v = 1 + count host l v := by
    intro v l hv
    rw [DeviceTree.count, countP_cons_of_pos, add_comm]
    · rfl
    · rw [hhost, Cell.raw, if_pos rfl, value_toCell hv]
      exact decide_eq_true rfl
  have hprops : ∀ ps : List (DtProperty strings),
      ps.length ≤ count host (ps.flatMap DtProperty.encode) FdtProp := by
    intro ps
    induction ps with
    | nil => exact zero_le
    | cons p ps ih =>
      rw [flatMap_cons, count_append, DtProperty.encode, hcons _ (by decide), length_cons]
      omega
  have hmore : ∀ (a : Cell) (l : List Cell) (token : ℕ),
      count host l token ≤ count host (a :: l) token := fun a l token =>
    (sublist_cons_self a l).countP_le
  induction f with
  | nil => exact ⟨zero_le, zero_le⟩
  | node name ps children siblings ihc ihs =>
    have hps := hprops ps
    have hend := hmore (toCell FdtEndNode) siblings.encode
    have h₁ := hend FdtBeginNode
    have h₂ := hend FdtProp
    constructor
    · rw [encode, hcons _ (by decide), nodes]
      simp only [count_append]
      omega
    · refine le_trans ?_ (hmore _ _ _)
      simp only [count_append, props]
      omega

/-- **The round trip works for the trees that are parsable**, and for no others. -/
theorem exists_roundTrip_iff_parsable (host : DtHost)
    (name : { l : List Byte // 0 ∉ l ∧ l.length < 2 ^ 32 }) (ps : List (DtProperty strings))
    (children : DtSource strings) :
    (∃ t, init host strings (node name ps children .nil).block = some t ∧
      RoundTrip (node name ps children .nil) t) ↔ Parsable host (node name ps children .nil) := by
  obtain ⟨root, hroot⟩ : ∃ root, root = node name ps children .nil := ⟨_, rfl⟩
  have hinit : init host strings root.block = open Classical in
      if host.physReadable = true ∧ Room root 1
          (count host root.block FdtBeginNode) (count host root.block FdtProp) then
        some ⟨root.mirror ⟨2, 1⟩ .nil, count host root.block FdtBeginNode, none⟩
      else none := by
    rw [init, hroot, parseRoots_block, ite_and]
    split_ifs <;> rfl
  have hcount : host.bigEndian = true →
      root.nodes ≤ count host root.block FdtBeginNode ∧
        root.props ≤ count host root.block FdtProp := by
    intro hhost
    obtain ⟨h₁, h₂⟩ := le_count hhost root
    simp only [block, count_append]
    omega
  rw [← hroot]
  constructor
  · rintro ⟨t, ht, hround⟩
    have hphandle := findPHandle_init ht
    rw [hinit] at ht
    obtain ⟨⟨hread, hnodes, hprops, hnames⟩, ht⟩ := ite_none_right_eq_some.mp ht
    cases ht
    exact ⟨hread, fun _ => hnodes, fun _ => hprops, hnames, (roundTrip_iff_plain rfl hphandle).mp hround⟩
  · intro hpars
    have hroom : Room root 1 (count host root.block FdtBeginNode)
        (count host root.block FdtProp) := by
      cases hhost : host.bigEndian with
      | true => exact ⟨(hcount hhost).1, (hcount hhost).2, hpars.names⟩
      | false => exact ⟨hpars.nodes hhost, hpars.props hhost, hpars.names⟩
    have ht := hinit.trans (if_pos ⟨hpars.readable, hroom⟩)
    exact ⟨_, ht, (roundTrip_iff_plain rfl (findPHandle_init ht)).mpr hpars.plain⟩

/-- A root without anything is not rebuilt on a little-endian host: no node is counted, and the
assertion that there is room for it fails. -/
theorem not_exists_roundTrip_empty :
    ¬ ∃ t, init ⟨false, true⟩ [] (node ⟨[], by decide⟩ [] nil nil : DtSource []).block =
      some t ∧ RoundTrip (node ⟨[], by decide⟩ [] nil nil : DtSource []) t := by
  rintro ⟨t, ht, -⟩
  have hnone : init ⟨false, true⟩ []
      (node ⟨[], by decide⟩ [] nil nil : DtSource []).block = none := by decide
  exact nomatch hnone.symm.trans ht

end DtSource

end Northport.Config
