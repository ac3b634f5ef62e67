/-
# An image at two places

The same image is relocated at two bases.  Where a relocation puts the base into a word, the two
words differ by the difference of the bases.  A symbol of the module itself is put into a word as it
is in the symbol table, without the base: two images agree there, where they should not.
-/
import Northport.Drivers.ElfReloc

namespace Northport.Drivers

open Lib Option List DynamicElfInfo Nat

/-! ### What relocating is for -/

namespace DynamicElfInfo

variable (dynInfo : DynamicElfInfo)

/-- All relocations in their order, and whether they carry their addend. -/
def entries : List (ElfRela × Bool) :=
  dynInfo.relaEntries.map (·, true) ++ dynInfo.relEntries.map (·, false) ++
    dynInfo.pltRelocs.map (·, dynInfo.pltUsesRela)

end DynamicElfInfo

/-- The number of bytes that a relocation changes. -/
def relocLength (arch : Arch) (rela : ElfRela) : ℕ := (relocKind arch rela.type).elim 0 Prod.snd

/-- The byte of the image belongs to the word of the relocation. -/
def InWord (arch : Arch) (rela : ElfRela) (i : ℕ) : Prop :=
  rela.r_offset ≤ i ∧ i < rela.r_offset + relocLength arch rela

/-- **Valid relocations**: the types are supported and absolute, the words are parts of the image,
and no two of them overlap. -/
structure ValidRelocs (arch : Arch) (dynInfo : DynamicElfInfo) (size : ℕ) : Prop where
  kind : ∀ e ∈ dynInfo.entries, (relocKind arch e.1.type).isSome
  inside : ∀ e ∈ dynInfo.entries, e.1.r_offset + relocLength arch e.1 ≤ size
  apart : dynInfo.entries.Pairwise fun e e' => ∀ i, InWord arch e.1 i → ¬ InWord arch e'.1 i

/-- The word of `n` bytes at the address. -/
def wordAt (arch : Arch) (m : ByteMem) (p n : ℕ) : ℕ :=
  ∑ k ∈ Finset.range n, 256 ^ arch.digit n k * (m (p + k)).toNat

/-- The relocation puts the value of a symbol into the word. -/
def UsesSymbol (arch : Arch) (rela : ElfRela) : Prop :=
  ∃ kind n, relocKind arch rela.type = some (kind, n) ∧ kind.usesSymbol = true

/-- **The image at `base'` is the image at `base`**, but for the words that have the base in them. -/
structure Rebased (arch : Arch) (dynInfo : DynamicElfInfo) (size base base' : ℕ) (m m' : ByteMem) :
    Prop where
  rest : ∀ i < size, (∀ e ∈ dynInfo.entries, ¬ InWord arch e.1 i) → m' (base' + i) = m (base + i)
  moved : ∀ e ∈ dynInfo.entries,
    (UsesSymbol arch e.1 → (dynInfo.symTable e.1.sym).Defined) →
    wordAt arch m' (base' + e.1.r_offset) (relocLength arch e.1) + base ≡
      wordAt arch m (base + e.1.r_offset) (relocLength arch e.1) + base'
      [MOD 256 ^ relocLength arch e.1]
  fixed : ∀ e ∈ dynInfo.entries, UsesSymbol arch e.1 → ¬ (dynInfo.symTable e.1.sym).Defined →
    wordAt arch m' (base' + e.1.r_offset) (relocLength arch e.1) =
      wordAt arch m (base + e.1.r_offset) (relocLength arch e.1)

/-! ### Words -/

section Words

variable {arch : Arch} {m m' : ByteMem} {p p' v n : ℕ}

lemma wordAt_congr (h : ∀ k < n, m' (p' + k) = m (p + k)) :
    wordAt arch m' p' n = wordAt arch m p n := by
  refine Finset.sum_congr rfl fun k hk => ?_
  rw [h k (Finset.mem_range.mp hk)]

lemma loadWord_congr (h : ∀ k < n, m' (p' + k) = m (p + k)) :
    loadWord arch m' p' n = loadWord arch m p n := by
  refine Finset.sum_congr rfl fun k hk => ?_
  rw [h k (Finset.mem_range.mp hk)]

/-- The digits of a number give the number back. -/
lemma sum_digits (v n : ℕ) : ∑ k ∈ Finset.range n, 256 ^ k * (v / 256 ^ k % 256) = v % 256 ^ n := by
  induction n with
  | zero => simp [mod_one]
  | succ n ih => rw [Finset.sum_range_succ, ih, mod_pow_succ]

/-- A whole word that was stored. -/
lemma wordAt_of_stored (h : ∀ k < arch.wordBytes, m (p + k) =
    BitVec.ofNat 8 (v / 256 ^ arch.digit arch.wordBytes k)) :
    wordAt arch m p arch.wordBytes = v % arch.wordSize := by
  have hsum : wordAt arch m p arch.wordBytes = ∑ k ∈ Finset.range arch.wordBytes,
      256 ^ arch.digit arch.wordBytes k * (v / 256 ^ arch.digit arch.wordBytes k % 256) := by
    refine Finset.sum_congr rfl fun k hk => ?_
    rw [h k (Finset.mem_range.mp hk), BitVec.toNat_ofNat]
  rw [hsum, Arch.wordSize, ← sum_digits]
  cases arch with
  | x86_64 => rfl
  | riscv64 => rfl
  | m68k => exact Finset.sum_range_reflect (fun k => 256 ^ k * (v / 256 ^ k % 256)) 4

end Words

/-! ### One relocation -/

section Single

variable {arch : Arch} {kernel : List UInt8 → Option ℕ} {dynInfo : DynamicElfInfo} {m m' : ByteMem}
  {rela : ElfRela} {kind : RelocKind} {n base : ℕ} {isRela isDriver : Bool}

variable (arch) in
/-- The addend of a relocation of an image at `base`. -/
def addendOf (m : ByteMem) (base : ℕ) (e : ElfRela × Bool) : ℕ :=
  if e.2 then e.1.r_addend else loadWord arch m (base + e.1.r_offset) (relocLength arch e.1)

variable (arch kernel dynInfo) in
/-- What a relocation of an image at `base` puts into the word. -/
def valueOf (m : ByteMem) (base : ℕ) (isDriver : Bool) (e : ElfRela × Bool) : ℕ :=
  (relocKind arch e.1.type).elim 0 fun kind => kind.1.value arch (addendOf arch m base e) base
    (symbolValue kernel dynInfo e.1 isDriver)

lemma relocLength_eq (h : relocKind arch rela.type = some (kind, n)) : relocLength arch rela = n := by
  rw [relocLength, h]
  rfl

/-- A relocation that succeeds stores its value. -/
lemma applyRelocation_eq (h : relocKind arch rela.type = some (kind, n))
    (hp : base + rela.r_offset < arch.wordSize)
    (happly : applyRelocation arch kernel dynInfo m rela isRela base isDriver = (true, m')) :
    m' = storeWord arch m (base + rela.r_offset)
      (valueOf arch kernel dynInfo m base isDriver (rela, isRela)) n := by
  obtain ⟨hpos, hle, -⟩ := relocKind_length h
  have haddend : ∀ s, relocAddend arch m rela isRela base s (base + rela.r_offset) =
      some (addendOf arch m base (rela, isRela)) := by
    intro s
    rw [relocAddend, addendOf, relocLength_eq h]
    cases isRela with
    | true => rfl
    | false =>
      rw [computeRelocation_eq h]
      simp [hpos.ne', hle]
  rw [applyRelocation, mod_eq_of_lt hp, haddend] at happly
  simp only [computeRelocation_eq h] at happly
  split_ifs at happly with hunknown hzero
  · exact absurd (Prod.mk.inj happly).1 (by decide)
  · exact absurd (Prod.mk.inj happly).1 (by decide)
  · rw [← (Prod.mk.inj happly).2, valueOf, h]
    rfl

end Single

/-! ### All relocations -/

section All

variable {arch : Arch} {kernel : List UInt8 → Option ℕ} {dynInfo : DynamicElfInfo} {m m' : ByteMem}
  {base size : ℕ} {isDriver : Bool} {es : List (ElfRela × Bool)}

variable (arch kernel dynInfo) in
/-- The relocations of a list, as long as they succeed. -/
def applyAll (base : ℕ) (isDriver : Bool) : List (ElfRela × Bool) → ByteMem → Option ByteMem
  | [], m => some m
  | e :: es, m =>
    let result := applyRelocation arch kernel dynInfo m e.1 e.2 base isDriver
    if result.1 then applyAll base isDriver es result.2 else none

lemma applyAll_append (es es' : List (ElfRela × Bool)) (m : ByteMem) :
    applyAll arch kernel dynInfo base isDriver (es ++ es') m =
      (applyAll arch kernel dynInfo base isDriver es m).bind
        (applyAll arch kernel dynInfo base isDriver es') := by
  induction es generalizing m with
  | nil => rfl
  | cons e es ih =>
    rw [cons_append, applyAll, applyAll]
    split_ifs
    · exact ih _
    · rfl

variable (arch kernel dynInfo base isDriver) in
/-- A table without failures is a list of relocations that succeed. -/
lemma applyTable_spec (isRela : Bool) (table : List ElfRela) (k : ℕ) (m : ByteMem) :
    k ≤ (applyTable arch kernel dynInfo isRela base isDriver table (k, m)).1 ∧
    ((applyTable arch kernel dynInfo isRela base isDriver table (k, m)).1 = k →
      applyAll arch kernel dynInfo base isDriver (table.map (·, isRela)) m =
        some (applyTable arch kernel dynInfo isRela base isDriver table (k, m)).2) := by
  induction table generalizing k m with
  | nil => exact ⟨le_rfl, fun _ => rfl⟩
  | cons rela table ih =>
    obtain ⟨result, hresult⟩ : ∃ result, result =
      applyRelocation arch kernel dynInfo m rela isRela base isDriver := ⟨_, rfl⟩
    have hcons : applyTable arch kernel dynInfo isRela base isDriver (rela :: table) (k, m) =
        applyTable arch kernel dynInfo isRela base isDriver table
          (if result.1 then k else k + 1, result.2) := by
      rw [hresult]
      rfl
    rw [hcons, map_cons, applyAll, ← hresult]
    obtain ⟨hle, heq⟩ := ih (if result.1 then k else k + 1) result.2
    split_ifs at hle heq ⊢
    · exact ⟨hle, heq⟩
    · exact ⟨by omega, fun h => absurd h (by omega)⟩

/-- The whole image, relocated without a failure. -/
lemma applyAll_of_relocateImage (hbase : base < arch.wordSize)
    (hoffset : ∀ e ∈ dynInfo.entries, e.1.r_offset < arch.wordSize)
    (h : relocateImage arch kernel dynInfo m base isDriver = some m') :
    applyAll arch kernel dynInfo base isDriver dynInfo.entries m = some m' := by
  have hin : ∀ table : List ElfRela, (∀ rela ∈ table, rela.r_offset < arch.wordSize) →
      table.filter (inRange arch 0 (arch.wordSize - 1)) = table := by
    intro table htable
    refine filter_eq_self.mpr fun rela hrela => ?_
    have := htable rela hrela
    rw [inRange]
    simp
    omega
  have hrela := hin dynInfo.relaEntries fun rela hrela => hoffset (rela, true) (by
    simp [entries, hrela])
  have hrel := hin dynInfo.relEntries fun rela hrela => hoffset (rela, false) (by
    simp [entries, hrela])
  have hzero : (base + (arch.wordSize - 0 % arch.wordSize)) % arch.wordSize = base := by
    rw [Nat.zero_mod, Nat.sub_zero, Nat.add_mod_right, Nat.mod_eq_of_lt hbase]
  rw [relocateImage, doRelocations, linkPlt, hrela, hrel, hzero] at h
  dsimp only at h
  split_ifs at h with hdone hlinked
  rw [beq_iff_eq] at hdone hlinked
  obtain ⟨state, hstate⟩ : ∃ state, state =
    applyTable arch kernel dynInfo true base isDriver dynInfo.relaEntries (0, m) := ⟨_, rfl⟩
  rw [← hstate] at hdone hlinked h
  obtain ⟨-, h₁⟩ := applyTable_spec arch kernel dynInfo base isDriver
    true dynInfo.relaEntries 0 m
  obtain ⟨hle, h₂⟩ := applyTable_spec arch kernel dynInfo base isDriver
    false dynInfo.relEntries state.1 state.2
  rw [Prod.mk.eta] at hle h₂
  have hstate0 : state.1 = 0 := by omega
  obtain ⟨-, h₃⟩ := applyTable_spec arch kernel dynInfo base isDriver
    dynInfo.pltUsesRela dynInfo.pltRelocs 0
    (applyTable arch kernel dynInfo false base isDriver dynInfo.relEntries state).2
  rw [← hstate] at h₁
  rw [entries, applyAll_append, applyAll_append, h₁ hstate0, bind_some,
    h₂ (hdone.trans hstate0.symm), bind_some, h₃ hlinked]
  exact h

/-- **What the relocations leave behind**: each word has the value that its relocation computes from
the image as it was, and the other bytes are as they were. -/
lemma applyAll_spec (hfits : base + size ≤ arch.wordSize)
    (hkind : ∀ e ∈ es, (relocKind arch e.1.type).isSome)
    (hinside : ∀ e ∈ es, e.1.r_offset + relocLength arch e.1 ≤ size)
    (hapart : es.Pairwise fun e e' => ∀ i, InWord arch e.1 i → ¬ InWord arch e'.1 i)
    (h : applyAll arch kernel dynInfo base isDriver es m = some m') :
    (∀ i, (∀ e ∈ es, ¬ InWord arch e.1 i) → m' (base + i) = m (base + i)) ∧
    ∀ e ∈ es, ∀ k < relocLength arch e.1, m' (base + e.1.r_offset + k) = BitVec.ofNat 8
      (valueOf arch kernel dynInfo m base isDriver e / 256 ^ arch.digit arch.wordBytes k) := by
  induction es generalizing m with
  | nil =>
    rw [← Option.some.inj h]
    exact ⟨fun _ _ => rfl, nofun⟩
  | cons e es ih =>
    rw [forall_mem_cons] at hkind hinside
    obtain ⟨hhead, htail⟩ := pairwise_cons.mp hapart
    obtain ⟨⟨kind, n⟩, hk⟩ := isSome_iff_exists.mp hkind.1
    have hn := relocLength_eq hk
    have hpos := (relocKind_length hk).1
    rw [applyAll] at h
    split_ifs at h with hok
    obtain ⟨m₁, hm₁⟩ : ∃ m₁, m₁ =
      (applyRelocation arch kernel dynInfo m e.1 e.2 base isDriver).2 := ⟨_, rfl⟩
    rw [← hm₁] at h
    have hstore := applyRelocation_eq hk (by omega) (Prod.ext hok hm₁.symm)
    obtain ⟨hrest, hwords⟩ := ih hkind.2 hinside.2 htail h
    -- the head changes no byte outside of its word
    have hout : ∀ i, ¬ InWord arch e.1 i → m₁ (base + i) = m (base + i) := by
      intro i hi
      rw [hstore, storeWord, if_neg]
      rw [InWord] at hi
      omega
    refine ⟨fun i hi => ?_, fun e' he' k hklt => ?_⟩
    · obtain ⟨hi, hi'⟩ := forall_mem_cons.mp hi
      rw [hrest i hi', hout i hi]
    · rcases mem_cons.mp he' with rfl | he'
      · have hin : InWord arch e'.1 (e'.1.r_offset + k) := ⟨le_add_right _ _, by omega⟩
        rw [add_assoc, hrest _ fun e₂ he₂ => hhead e₂ he₂ _ hin, hstore, storeWord, if_pos]
        · congr 4
          omega
        · rw [hn] at hklt
          omega
      · rw [hwords e' he' k hklt]
        have hload : valueOf arch kernel dynInfo m₁ base isDriver e' =
            valueOf arch kernel dynInfo m base isDriver e' := by
          rw [valueOf, valueOf, addendOf, addendOf, loadWord_congr fun j hj => ?_]
          rw [add_assoc]
          refine hout _ fun hin => hhead e' he' _ hin ⟨le_add_right _ _, ?_⟩
          omega
        rw [hload]

end All

/-! ### Two loads -/

section Two

variable {arch : Arch} {kernel : List UInt8 → Option ℕ} {dynInfo : DynamicElfInfo}
  {m m' r r' : ByteMem} {base base' size : ℕ} {isDriver : Bool} {e : ElfRela × Bool}

/-- The value of a symbol does not depend on the base. -/
lemma valueOf_eq_of_usesSymbol (he : UsesSymbol arch e.1) (hload : ∀ k < relocLength arch e.1,
      m' (base' + e.1.r_offset + k) = m (base + e.1.r_offset + k)) :
    valueOf arch kernel dynInfo m' base' isDriver e =
      valueOf arch kernel dynInfo m base isDriver e := by
  obtain ⟨kind, n, hk, huse⟩ := he
  rw [valueOf, valueOf, hk, addendOf, loadWord_congr hload]
  cases kind with
  | symbolAddend => rfl
  | symbol => rfl
  | relative => cases huse

/-- Two values that have the base in them. -/
lemma modEq_of_relative {n : ℕ} (hk : relocKind arch e.1.type = some (.relative, n))
    (hload : ∀ k < relocLength arch e.1,
      m' (base' + e.1.r_offset + k) = m (base + e.1.r_offset + k)) :
    valueOf arch kernel dynInfo m' base' isDriver e + base ≡
      valueOf arch kernel dynInfo m base isDriver e + base' [MOD arch.wordSize] := by
  rw [valueOf, valueOf, hk, addendOf, addendOf, loadWord_congr hload]
  generalize (if e.2 then _ else _) = a
  calc (base' + a) % arch.wordSize + base ≡ base' + a + base [MOD arch.wordSize] :=
        (mod_modEq _ _).add_right _
    _ = base + a + base' := by omega
    _ ≡ (base + a) % arch.wordSize + base' [MOD arch.wordSize] :=
        ((mod_modEq _ _).add_right _).symm

/-- **The image is the same at both bases**, but for the words that have the base in them, exactly if
no relocation refers to a symbol of the module (or the bases agree in as many bytes as the word
has). -/
theorem rebased_iff (hvalid : ValidRelocs arch dynInfo size) (hbase : base + size ≤ arch.wordSize)
    (hbase' : base' + size ≤ arch.wordSize) (hlt : base < arch.wordSize)
    (hlt' : base' < arch.wordSize) (hsame : ∀ i < size, m' (base' + i) = m (base + i))
    (hrun : relocateImage arch kernel dynInfo m base isDriver = some r)
    (hrun' : relocateImage arch kernel dynInfo m' base' isDriver = some r') :
    Rebased arch dynInfo size base base' r r' ↔
      ∀ e ∈ dynInfo.entries, UsesSymbol arch e.1 → (dynInfo.symTable e.1.sym).Defined →
        base ≡ base' [MOD 256 ^ relocLength arch e.1] := by
  obtain ⟨hkind, hinside, hapart⟩ := hvalid
  have hoffset : ∀ e ∈ dynInfo.entries, e.1.r_offset < arch.wordSize := by
    intro e he
    obtain ⟨⟨kind, n⟩, hk⟩ := isSome_iff_exists.mp (hkind e he)
    have := (relocKind_length hk).1
    have := relocLength_eq hk
    have := hinside e he
    omega
  obtain ⟨hrest, hwords⟩ := applyAll_spec hbase hkind hinside hapart
    (applyAll_of_relocateImage hlt hoffset hrun)
  obtain ⟨hrest', hwords'⟩ := applyAll_spec hbase' hkind hinside hapart
    (applyAll_of_relocateImage hlt' hoffset hrun')
  have hload : ∀ e ∈ dynInfo.entries, ∀ k < relocLength arch e.1,
      m' (base' + e.1.r_offset + k) = m (base + e.1.r_offset + k) := by
    intro e he k hk
    rw [add_assoc, add_assoc]
    have := hinside e he
    exact hsame _ (by omega)
  -- where a symbol is used, the two words are the same
  have hsymbol : ∀ e ∈ dynInfo.entries, UsesSymbol arch e.1 →
      wordAt arch r' (base' + e.1.r_offset) (relocLength arch e.1) =
        wordAt arch r (base + e.1.r_offset) (relocLength arch e.1) := by
    intro e he huse
    refine wordAt_congr fun k hk => ?_
    rw [hwords e he k hk, hwords' e he k hk, valueOf_eq_of_usesSymbol huse (hload e he)]
  have hrelative : ∀ e ∈ dynInfo.entries, ¬ UsesSymbol arch e.1 →
      wordAt arch r' (base' + e.1.r_offset) (relocLength arch e.1) + base ≡
        wordAt arch r (base + e.1.r_offset) (relocLength arch e.1) + base'
        [MOD 256 ^ relocLength arch e.1] := by
    intro e he huse
    obtain ⟨⟨kind, n⟩, hk⟩ := isSome_iff_exists.mp (hkind e he)
    obtain rfl : kind = .relative := by
      cases kind with
      | symbolAddend => exact absurd ⟨_, _, hk, rfl⟩ huse
      | symbol => exact absurd ⟨_, _, hk, rfl⟩ huse
      | relative => rfl
    have hn : relocLength arch e.1 = arch.wordBytes :=
      (relocLength_eq hk).trans ((relocKind_length hk).2.2 rfl)
    have h := hwords e he
    have h' := hwords' e he
    rw [hn] at h h' ⊢
    rw [wordAt_of_stored h, wordAt_of_stored h']
    calc _ ≡ valueOf arch kernel dynInfo m' base' isDriver e + base [MOD arch.wordSize] :=
          (mod_modEq _ _).add_right _
      _ ≡ valueOf arch kernel dynInfo m base isDriver e + base' [MOD arch.wordSize] :=
          modEq_of_relative hk (hload e he)
      _ ≡ _ [MOD arch.wordSize] := ((mod_modEq _ _).add_right _).symm
  constructor
  · intro h e he huse hdef
    have hmoved := h.moved e he fun _ => hdef
    rw [hsymbol e he huse] at hmoved
    exact ModEq.add_left_cancel' _ hmoved
  · intro h
    refine ⟨fun i hi hout => ?_, fun e he hdef => ?_, fun e he huse _ => hsymbol e he huse⟩
    · rw [hrest i hout, hrest' i hout, hsame i hi]
    · by_cases huse : UsesSymbol arch e.1
      · rw [hsymbol e he huse]
        exact (h e he huse (hdef huse)).add_left _
      · exact hrelative e he huse

/-- A module with one relocation, at its beginning. -/
def oneReloc (rela : ElfRela) : DynamicElfInfo :=
  ⟨fun _ => ⟨0, 16, 1, []⟩, [rela], [], [], true⟩

lemma validRelocs_oneReloc (type : ℕ) {kind : RelocKind}
    (h : relocKind .x86_64 type = some (kind, 8)) (sym addend : ℕ) :
    ValidRelocs .x86_64 (oneReloc ⟨0, type, sym, addend⟩) 8 where
  kind := by simp [entries, oneReloc, h]
  inside := by simp [entries, oneReloc, relocLength, h]
  apart := pairwise_singleton _ _

theorem rebased_iff_relative :
    ValidRelocs .x86_64 (oneReloc ⟨0, R_X86_64_RELATIVE, 0, 32⟩) 8 ∧
    Rebased .x86_64 (oneReloc ⟨0, R_X86_64_RELATIVE, 0, 32⟩) 8 0x1000 0x2000
      (storeWord .x86_64 (fun _ => 0#8) 0x1000 0x1020 8)
      (storeWord .x86_64 (fun _ => 0#8) 0x2000 0x2020 8) := by
  have hvalid := validRelocs_oneReloc R_X86_64_RELATIVE rfl 0 32
  have hrun : relocateImage .x86_64 (fun _ => none) (oneReloc ⟨0, R_X86_64_RELATIVE, 0, 32⟩)
      (fun _ => 0#8) 0x1000 true = some (storeWord .x86_64 (fun _ => 0#8) 0x1000 0x1020 8) := rfl
  have hrun' : relocateImage .x86_64 (fun _ => none) (oneReloc ⟨0, R_X86_64_RELATIVE, 0, 32⟩)
      (fun _ => 0#8) 0x2000 true = some (storeWord .x86_64 (fun _ => 0#8) 0x2000 0x2020 8) := rfl
  refine ⟨hvalid, Iff.mpr (rebased_iff hvalid (by decide) (by decide) (by decide) (by decide)
    (fun _ _ => rfl) hrun hrun') ?_⟩
  rintro e he ⟨kind, n, hk, huse⟩ -
  obtain rfl : e = (⟨0, R_X86_64_RELATIVE, 0, 32⟩, true) := by
    simpa [entries, oneReloc] using he
  cases hk
  cases huse

/-- A word that is to hold the address of a function of the module, which is 16 bytes behind its
beginning: at both bases it holds 16. -/
theorem symbol_without_base : ∃ r r',
    relocateImage .x86_64 (fun _ => none) (oneReloc ⟨0, R_X86_64_64, 0, 0⟩) (fun _ => 0#8) 0x1000
      true = some r ∧
    relocateImage .x86_64 (fun _ => none) (oneReloc ⟨0, R_X86_64_64, 0, 0⟩) (fun _ => 0#8) 0x2000
      true = some r' ∧
    ¬ Rebased .x86_64 (oneReloc ⟨0, R_X86_64_64, 0, 0⟩) 8 0x1000 0x2000 r r' := by
  refine ⟨storeWord .x86_64 (fun _ => 0#8) 0x1000 16 8, storeWord .x86_64 (fun _ => 0#8) 0x2000 16 8,
    rfl, rfl, fun h => ?_⟩
  have hmoved := h.moved (⟨0, R_X86_64_64, 0, 0⟩, true) mem_cons_self fun _ => by decide
  exact absurd hmoved (by decide)

end Two

end Northport.Drivers
