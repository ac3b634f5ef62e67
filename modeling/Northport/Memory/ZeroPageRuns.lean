/-
# Runs of the zero page

Stores respect the permission of the mapping, and so leave the zero page alone; `CopyIn` writes
through the direct map to whatever frame it finds.  With what `Alloc`, faults and `SetFlags` do,
this gives the exact condition for the zero page to stay pristine along a run.
-/
import Northport.Memory.AnonCopy
import Northport.Memory.ZeroPageSteps

namespace Northport.Memory

open Lib PageMap Option Function List ByteMem

namespace AnonSystem

open Vmm AnonVmDriver

variable {ι P τ : Type} [DecidableEq ι] [DecidableEq P] {m : MetaAlloc P} {d : AnonVmDriver τ}
  {S S' : AnonSystem ι P τ} {i j : ι} {v v' : Vmm P (AnonState τ)} {pte : Pte} {vaddr : ℕ}

/-! ### Stores and copies -/

/-- Bytes are put at an address of a space, and recorded. -/
def poke (S : AnonSystem ι P τ) (i : ι) (vaddr : ℕ) (bytes : List (BitVec 8)) :
    AnonSystem ι P τ :=
  { S with
    mem := (S.map i).copyMem S.mem vaddr bytes
    written := update S.written i ((S.written i).writeList vaddr bytes) }

omit [DecidableEq P] in
lemma poke_cons (S : AnonSystem ι P τ) (i : ι) (vaddr : ℕ) (byte : BitVec 8)
    (bytes : List (BitVec 8)) :
    S.poke i vaddr (byte :: bytes) = (S.poke i vaddr [byte]).poke i (vaddr + 1) bytes := by
  have hwritten : update S.written i ((S.written i).writeList vaddr (byte :: bytes)) =
      update (S.poke i vaddr [byte]).written i
        (((S.poke i vaddr [byte]).written i).writeList (vaddr + 1) bytes) := by
    simp only [poke, update_self, update_idem, writeList_cons,
      writeList_nil]
  rw [poke, hwritten]
  rfl

/-- The invariant does not speak of the contents. -/
lemma Inv.poke (h : S.Inv d) (i : ι) (vaddr : ℕ) (bytes : List (BitVec 8)) :
    (S.poke i vaddr bytes).Inv d := { h with }

/-- **One byte** that is not put into the zero page, or is zero. -/
lemma Pristine.poke_byte (hp : S.Pristine d) (h : S.Inv d) (hz : d.zeroPage % PageSize = 0)
    (byte : BitVec 8) (hpte : S.map i (vaddr / PageSize) = some pte)
    (hbyte : pte.frame = d.zeroPage → byte = 0#8) : (S.poke i vaddr [byte]).Pristine d := by
  obtain ⟨a, ha⟩ : ∃ a, a = pte.frame + vaddr % PageSize := ⟨_, rfl⟩
  have hal := (h.frames i _ pte hpte).2
  have hmem : (S.poke i vaddr [byte]).mem = update S.mem a byte := by
    have hget : (S.map i).hatGetMap vaddr = some a := by
      rw [hatGetMap, hpte, ha]
      rfl
    rw [poke, copyMem, hget]
    rfl
  have hwritten : (S.poke i vaddr [byte]).written =
      update S.written i (update (S.written i) vaddr byte) := by
    rw [poke, writeList_cons, writeList_nil]
  -- an address is in one frame only
  have hsame : ∀ frame off, frame % PageSize = 0 → off < PageSize → frame + off = a →
      frame = pte.frame ∧ off = vaddr % PageSize := by
    intro frame off hal' hoff heq
    rw [PageSize] at *
    omega
  refine ⟨fun off hoff => ?_, hp.readonly, fun j vaddr' pte' hpte' => ?_⟩
  · rw [hmem]
    by_cases heq : d.zeroPage + off = a
    · rw [heq, update_self]
      exact hbyte (hsame _ off hz hoff heq).1.symm
    · rw [update_of_ne heq]
      exact hp.zero off hoff
  · have hpte'' : S.map j (vaddr' / PageSize) = some pte' := hpte'
    have hlt : vaddr' % PageSize < PageSize := Nat.mod_lt _ (by decide)
    have hread := hp.reads j vaddr' pte' hpte''
    rw [hmem, hwritten]
    by_cases hself : j = i ∧ vaddr' = vaddr
    · obtain ⟨rfl, rfl⟩ := hself
      cases hpte''.symm.trans hpte
      rw [← ha, update_self, update_self, update_self]
    · have hold : update S.written i (update (S.written i) vaddr byte) j vaddr' =
          S.written j vaddr' := by
        rcases eq_or_ne j i with rfl | hj
        · rw [update_self, update_of_ne fun heq => hself ⟨rfl, heq⟩]
        · rw [update_of_ne hj]
      rw [hold]
      by_cases heq : pte'.frame + vaddr' % PageSize = a
      · -- another page with this frame: it is the zero page
        obtain ⟨hframe, hoff⟩ := hsame _ _ (h.frames j _ pte' hpte'').2 hlt heq
        have hzero : pte.frame = d.zeroPage := by
          by_contra hne
          obtain ⟨rfl, hpage⟩ := h.own j i _ _ pte' pte hpte'' hpte hframe (hframe ▸ hne)
          refine hself ⟨rfl, ?_⟩
          rw [← Nat.div_add_mod' vaddr' PageSize, hpage, hoff, Nat.div_add_mod']
        rw [← hread, heq, update_self, hbyte hzero, ha, hzero]
        exact (hp.zero _ (Nat.mod_lt _ (by decide))).symm
      · rw [update_of_ne heq, hread]

/-- **Bytes put one after the other** leave the zero page pristine exactly if those for the zero
page are zero. -/
lemma pristine_poke_iff (h : S.Inv d) (hz : d.zeroPage % PageSize = 0) (hp : S.Pristine d)
    (bytes : List (BitVec 8))
    (hmapped : ∀ k < bytes.length, (S.map i ((vaddr + k) / PageSize)).isSome) :
    (S.poke i vaddr bytes).Pristine d ↔
      ∀ k < bytes.length, d.ZeroMapped (S.map i) ((vaddr + k) / PageSize) →
        bytes.getD k 0#8 = 0#8 := by
  constructor
  · rintro hp' k hk ⟨pte, hpte, hframe⟩
    have hread := hp'.reads i (vaddr + k) pte hpte
    have hzero := hp'.zero _ (Nat.mod_lt (vaddr + k) (show 0 < PageSize by decide))
    rw [hframe, hzero] at hread
    have hwritten : (S.poke i vaddr bytes).written i (vaddr + k) = bytes.getD k 0#8 := by
      have hpoke : (S.poke i vaddr bytes).written i = (S.written i).writeList vaddr bytes :=
        update_self i _ _
      rw [hpoke, writeList, if_pos ⟨by omega, by omega⟩, Nat.add_sub_cancel_left]
    rw [← hwritten, hread]
  · intro hbytes
    induction bytes generalizing S vaddr with
    | nil =>
      refine hp.congr rfl rfl ?_
      rw [poke, writeList_nil, update_eq_self]
    | cons byte bytes ih =>
      rw [poke_cons]
      obtain ⟨pte, hpte⟩ := isSome_iff_exists.mp (hmapped 0 (Nat.succ_pos _))
      have hshift : ∀ k, vaddr + 1 + k = vaddr + (k + 1) := fun k => by omega
      refine ih (h.poke i vaddr [byte])
        (hp.poke_byte h hz byte hpte fun hframe => hbytes 0 (Nat.succ_pos _) ⟨pte, hpte, hframe⟩)
        (fun k hk => ?_) (fun k hk hzero => ?_)
      · rw [hshift]
        exact hmapped (k + 1) (Nat.succ_lt_succ hk)
      · rw [hshift] at hzero
        exact hbytes (k + 1) (Nat.succ_lt_succ hk) hzero

omit [DecidableEq P] in
/-- What a store does to the memory. -/
lemma store_mem (S : AnonSystem ι P τ) (i : ι) (vaddr : ℕ) (byte : BitVec 8) :
    ((S.enter i).env.map.store vaddr byte).mem =
      if S.writable i (vaddr / PageSize) then (S.poke i vaddr [byte]).mem else S.mem := by
  rw [AnonState.store, writable, poke, copyMem, hatGetMap]
  cases hm : S.map i (vaddr / PageSize) with
  | none =>
    rw [show (S.enter i).env.map.map (vaddr / PageSize) = none from hm]
    rfl
  | some pte =>
    rw [show (S.enter i).env.map.map (vaddr / PageSize) = some pte from hm]
    simp only [any_some, map_some]
    split_ifs <;> rfl

/-- **A store** of a program keeps the zero page pristine: it is not mapped writable. -/
lemma pristine_store (h : S.Inv d) (hz : d.zeroPage % PageSize = 0) (hp : S.Pristine d)
    {byte : BitVec 8} (hstep : S.step m d (.store i vaddr byte) = some S') : S'.Pristine d := by
  cases hstep
  have hmem := store_mem S i vaddr byte
  have hmap : ((S.enter i).env.map.store vaddr byte).map = S.map i :=
    AnonState.store_map (S.enter i).env.map vaddr byte
  cases hw : S.writable i (vaddr / PageSize) with
  | false =>
    rw [hw] at hmem
    exact hp.leave_same hmap hmem
  | true =>
    rw [hw] at hmem
    rw [writable] at hw
    cases hpte : S.map i (vaddr / PageSize) with
    | none =>
      rw [hpte] at hw
      cases hw
    | some pte =>
      rw [hpte] at hw
      have hwrite : pte.flags.write = true := hw
      have hne : pte.frame ≠ d.zeroPage := by
        intro heq
        rw [hp.readonly i _ pte hpte heq] at hwrite
        cases hwrite
      have hp' := hp.poke_byte h hz byte hpte fun heq => absurd heq hne
      exact hp'.congr hmem (map_leave_same hmap) rfl

/-- **`CopyIn`** keeps the zero page pristine exactly if it copies only zeros there. -/
lemma pristine_copyIn_iff (h : S.Inv d) (hz : d.zeroPage % PageSize = 0)
    (huse : d.useZeroPage = true) (hp : S.Pristine d) (i : ι) (base : ℕ)
    (bytes : List (BitVec 8)) :
    (∀ S', S.step m d (.copyIn i base bytes) = some S' → S'.Pristine d) ↔
      S.Careful m d (.copyIn i base bytes) := by
  rw [Careful]
  cases hrun : (S.enter i).copyIn d.faultHandlers base bytes with
  | none =>
    refine iff_of_true (fun S' hstep => ?_) trivial
    rw [step, hrun] at hstep
    cases hstep
  | some r =>
    obtain ⟨v1, n⟩ := r
    obtain ⟨hn, ⟨stats, hv1⟩, hmapped⟩ := (h.enter_anon i).copyIn huse (h.top i) hrun
    have hstep : S.step m d (.copyIn i base bytes) =
        some ((S.leave i v1).record i (·.writeList base (bytes.take n))) := by
      rw [step, hrun]
      rfl
    have htake : (bytes.take n).length = n := by rw [length_take, min_eq_left hn]
    have hmem : (S.leave i v1).mem = (S.poke i base (bytes.take n)).mem := by
      rw [hv1]
      rfl
    have hmap : (S.leave i v1).map = S.map := map_leave_same (by rw [hv1]; rfl)
    have hiff := pristine_poke_iff h hz hp (bytes.take n)
      (fun k hk => hmapped k (by rwa [htake] at hk))
    rw [htake] at hiff
    rw [forall_pristine hstep]
    refine Iff.trans ⟨fun hp' => ?_, fun hp' => ?_⟩ (hiff.trans ?_)
    · exact hp'.congr hmem.symm hmap.symm rfl
    · exact hp'.congr hmem hmap rfl
    · refine forall₂_congr fun k hk => imp_congr_right fun _ => ?_
      rw [getD_eq_getElem?_getD, getElem?_take_of_lt hk, ← getD_eq_getElem?_getD]

/-! ### Free -/

/-- What `Free` does to the page tables and to the PMM. -/
lemma detachPage_cases (range : VmRange) (env : VmEnv (AnonState τ)) :
    (d.detachPage range env = env) ∨
      ∃ pte, env.map.map range.firstPage = some pte ∧
        (d.detachPage range env).map = { env.map with
          map := env.map.map.set range.firstPage none
          pmm := if pte.frame ≠ d.zeroPage then d.frames.free env.map.pmm pte.frame
            else env.map.pmm } := by
  rw [detachPage, hatDoUnmap, ← VmRange.firstPage]
  cases hm : env.map.map range.firstPage with
  | none => exact .inl rfl
  | some pte => exact .inr ⟨pte, rfl, rfl⟩

/-- The space is left with one mapping less, and its frame is given back. -/
lemma Inv.release (h : S.Inv d) (hanon : v.Anon) {page : ℕ} (hpte : S.map i page = some pte)
    (hmap : v.env.map.map = (S.map i).set page none) (hpmm : v.env.map.pmm =
      if pte.frame ≠ d.zeroPage then d.frames.free S.pmm pte.frame else S.pmm) :
    (S.leave i v).Inv d := by
  have hold : ∀ j page' pte', (S.leave i v).map j page' = some pte' →
      S.map j page' = some pte' ∧ ¬ (j = i ∧ page' = page) := by
    intro j page' pte' hpte'
    rcases eq_or_ne j i with rfl | hj
    · rw [map_leave_self, hmap, PageMap.set] at hpte'
      split_ifs at hpte' with heq
      exact ⟨hpte', fun hcontra => heq hcontra.2⟩
    · rw [map_leave_of_ne S v hj] at hpte'
      exact ⟨hpte', fun hcontra => hj hcontra.1⟩
  -- a frame stays in use, unless it is the one that is given back
  have hinUse : ∀ f, d.frames.InUse S.pmm f → (pte.frame ≠ d.zeroPage → f ≠ pte.frame) →
      d.frames.InUse (S.leave i v).pmm f := by
    intro f hf hne
    rw [show (S.leave i v).pmm = v.env.map.pmm from rfl, hpmm]
    split_ifs with hzero
    · exact (d.frames.inUse_free _ _ _).mpr ⟨hne hzero, hf⟩
    · exact hf
  refine ⟨fun j => ?_, hinUse _ h.zero fun hne => hne.symm, fun j page' pte' hpte' => ?_, ?_, ?_⟩
  · rcases eq_or_ne j i with rfl | hj
    · rw [spaces_leave_self]
      exact hanon
    · rw [spaces_leave_of_ne S v hj]
      exact h.anon j
  · obtain ⟨hpte', hother⟩ := hold j page' pte' hpte'
    obtain ⟨huse, hal⟩ := h.frames j page' pte' hpte'
    refine ⟨hinUse _ huse fun hne heq => hother ?_, hal⟩
    exact h.own j i page' page pte' pte hpte' hpte heq (heq ▸ hne)
  · intro j j' page' page'' pte' pte'' hpte' hpte''
    exact h.own j j' page' page'' pte' pte'' (hold _ _ _ hpte').1 (hold _ _ _ hpte'').1
  · exact fun j page' pte' hpte' => h.top j page' pte' (hold _ _ _ hpte').1

section

variable (h : S.Inv d) (hz : d.zeroPage % PageSize = 0)

include h hz

/-- **`Free`** keeps the invariant and the zero page. -/
lemma free_keeps {base : ℕ}
    (hstep : S.step m d (.free i base) = some S') : S'.Inv d ∧ (S.Pristine d → S'.Pristine d) := by
  obtain ⟨⟨v1, r⟩, hrun, rfl⟩ := map_eq_some_iff.mp hstep
  obtain ⟨h1, ⟨rfl, -⟩ | ⟨range, -, -, henv⟩⟩ := (h.enter_anon i).free hrun
  · exact ⟨h.leave_same hz h1 rfl rfl, fun hp => hp.leave_same rfl rfl⟩
  · obtain ⟨env, henv', hmap⟩ : ∃ env : VmEnv (AnonState τ), v1.env = d.detachPage range env ∧
        env.map = (S.enter i).env.map := ⟨_, henv, rfl⟩
    rcases detachPage_cases (d := d) range env with hsame | ⟨pte, hpte, hdetach⟩
    · rw [hsame] at henv'
      have hmap1 : v1.env.map = (S.enter i).env.map := by rw [henv', hmap]
      refine ⟨h.leave_same hz h1 ?_ ?_, fun hp => hp.leave_same ?_ ?_⟩ <;> rw [hmap1] <;> rfl
    · rw [← henv', hmap] at hdetach
      rw [hmap] at hpte
      have hmap1 : v1.env.map.map = (S.map i).set range.firstPage none := by
        rw [hdetach]
        rfl
      refine ⟨h.release h1 hpte hmap1 (by rw [hdetach]; rfl), fun hp => ?_⟩
      have hmem : (S.leave i v1).mem = S.mem := by
        rw [show (S.leave i v1).mem = v1.env.map.mem from rfl, hdetach]
        rfl
      have hold : ∀ page pte', (S.leave i v1).map i page = some pte' →
          S.map i page = some pte' := by
        intro page pte' hpte'
        rw [map_leave_self, hmap1, PageMap.set] at hpte'
        split_ifs at hpte' with heq
        exact hpte'
      refine (pristine_iff_space h hz hp (fun j => map_leave_of_ne S v1) (fun _ _ => rfl)
        (fun _ _ => by rw [hmem])).mpr ⟨fun page pte' hpte' => ?_, fun vaddr pte' hpte' => ?_⟩
      · exact hp.readonly i page pte' (hold page pte' hpte')
      · rw [hmem]
        exact hp.reads i vaddr pte' (hold _ pte' hpte')

/-! ### Runs -/

/-- `Alloc` keeps the invariant. -/
lemma inv_alloc {length initArg : ℕ} {flags : VmFlags} {limits : VmAllocLimits}
    (hstep : S.step m d (.alloc i length initArg flags limits) = some S') : S'.Inv d := by
  obtain ⟨⟨v1, r⟩, hrun, rfl⟩ := map_eq_some_iff.mp hstep
  obtain ⟨h1, ⟨rfl, -, henv⟩ | ⟨b, rfl, hranges, henv⟩⟩ :=
    (h.enter_anon i).alloc hz (has_anonFlags flags) hrun
  · exact h.leave_same hz h1 (by rw [henv]; rfl) (by rw [henv]; rfl)
  · refine Inv.record ?_ i _
    generalize hrange : anonRange b length (anonFlags flags) = range at hranges henv
    have hpaged : range.Paged := (h1.ranges range (hranges ▸ mem_cons_self)).1
    have hmap1 : v1.env.map = d.attached range initArg (S.enter i).env.map := by rw [henv]
    obtain ⟨n, hpmm, hcases⟩ := attached_cases (d := d) (S.enter i).env.map range initArg
    rw [← hmap1] at hpmm hcases
    refine h.leave hz h1 range.firstPage n hpmm fun page pte hpte => ?_
    rcases hcases page pte hpte with hold | ⟨hpage, rfl | ⟨k, hk, rfl, rfl⟩⟩
    · exact .inl ⟨pte, hold, rfl⟩
    · exact .inr ⟨hpaged.page_top hpage, .inl rfl⟩
    · exact .inr ⟨hpaged.page_top hpage, .inr ⟨k, hk, rfl, rfl⟩⟩

/-- A fault keeps the invariant. -/
lemma inv_fault {addr : ℕ} {flags : VmFaultFlags}
    (hstep : S.step m d (.fault i addr flags) = some S') : S'.Inv d := by
  obtain ⟨⟨v1, r⟩, hrun, rfl⟩ := map_eq_some_iff.mp hstep
  rcases (h.enter_anon i).handleFault_cases d addr flags with
    ⟨env, hfault, hmap, -, -⟩ | ⟨range, hat, -, hfault⟩
  · cases hrun.symm.trans hfault
    exact h.leave_same hz ((h.enter_anon i).setEnv env) (by rw [hmap]; rfl) (by rw [hmap]; rfl)
  · obtain ⟨hmem, hlo, hhi⟩ := (h.enter_anon i).rangeAt_mem hat
    have hpaged : range.Paged := ((h.enter_anon i).ranges range hmem).1
    rw [hfault] at hrun
    split_ifs at hrun
    cases hrun
    refine h.leave hz ((h.enter_anon i).setEnv _) (addr / PageSize) (mapCount range addr) rfl
      fun page pte hpte => ?_
    rcases faulted_cases hpte with hold | ⟨k, hk, rfl, rfl⟩
    · exact .inl ⟨pte, hold, rfl⟩
    · exact .inr ⟨hpaged.page_top (window_hasPage hpaged hlo hhi hk), .inr ⟨k, hk, rfl, rfl⟩⟩

end

/-- **One call keeps the invariant.** -/
lemma inv_step (hz : d.zeroPage % PageSize = 0) (huse : d.useZeroPage = true) {op : SystemOp ι}
    (h : S.Inv d) (hstep : S.step m d op = some S') : S'.Inv d := by
  cases op with
  | alloc i length initArg flags limits => exact inv_alloc h hz hstep
  | fault i addr flags => exact inv_fault h hz hstep
  | store i vaddr byte =>
    cases hstep
    have hleave := h.leave_same (i := i) (v := { S.enter i with
      env := ⟨(S.enter i).env.stats, (S.enter i).env.map.store vaddr byte⟩ }) hz
      ((h.enter_anon i).setEnv _) (AnonState.store_map _ _ _) (AnonState.store_pmm _ _ _)
    split_ifs
    · exact hleave.record i _
    · exact hleave
  | setFlags i base flags =>
    obtain ⟨⟨v1, r⟩, hrun, rfl⟩ := map_eq_some_iff.mp hstep
    obtain ⟨h1, ⟨-, -, henv⟩ | ⟨range, rest, -, -, -, -, henv⟩⟩ := (h.enter_anon i).setFlags hrun
    · exact h.leave_same hz h1 (by rw [henv]; rfl) (by rw [henv]; rfl)
    · refine h.leave hz h1 0 0 (by rw [henv]; rfl) fun page pte hpte => ?_
      rw [henv] at hpte
      dsimp only at hpte
      rcases synced_cases hpte with hold | ⟨k, -, -, old, hold, rfl⟩
      · exact .inl ⟨pte, hold, rfl⟩
      · exact .inl ⟨old, hold, rfl⟩
  | copyIn i base bytes =>
    obtain ⟨⟨v1, n⟩, hrun, rfl⟩ := map_eq_some_iff.mp hstep
    obtain ⟨-, ⟨stats, hv1⟩, -⟩ := (h.enter_anon i).copyIn huse (h.top i) hrun
    have h1 : v1.Anon := hv1 ▸ (h.enter_anon i).setEnv _
    exact (h.leave_same hz h1 (by rw [hv1]; rfl) (by rw [hv1]; rfl)).record i _
  | free i base => exact (free_keeps h hz hstep).1
  | cores ready =>
    cases hstep
    exact { h with }

/-- **One call keeps the zero page pristine exactly if it is careful.** -/
lemma pristine_step_iff (hz : d.zeroPage % PageSize = 0) (huse : d.useZeroPage = true)
    (op : SystemOp ι) (h : S.Inv d) (hp : S.Pristine d) :
    (∀ S', S.step m d op = some S' → S'.Pristine d) ↔ S.Careful m d op := by
  cases op with
  | alloc i length initArg flags limits => exact pristine_alloc_iff h hz hp i length initArg flags limits
  | fault i addr flags => exact pristine_fault_iff h hz huse hp i addr flags
  | store i vaddr byte => exact iff_of_true (fun _ => pristine_store h hz hp) trivial
  | setFlags i base flags => exact pristine_setFlags_iff h hz hp i base flags
  | copyIn i base bytes => exact pristine_copyIn_iff h hz huse hp i base bytes
  | free i base => exact iff_of_true (fun _ hstep => (free_keeps h hz hstep).2 hp) trivial
  | cores ready =>
    refine iff_of_true (fun S' hstep => ?_) trivial
    cases hstep
    exact hp.congr rfl rfl rfl

/-- The zero page after `Init`. -/
lemma init_zeroPage {F : Frames τ} {enableFeatures : ℕ} {s s' : AnonState τ}
    (hfeature : enableFeatures.testBit 1 = true) (hinit : init F enableFeatures s = (d, s')) :
    d.useZeroPage = true ∧ d.zeroPage % PageSize = 0 ∧ d.frames.InUse s'.pmm d.zeroPage ∧
      ∀ off < PageSize, s'.mem (d.zeroPage + off) = 0#8 := by
  rw [init, if_pos hfeature] at hinit
  cases hinit
  refine ⟨rfl, F.aligned _, (F.inUse_alloc _ _).mpr (.inl rfl), fun off hoff => ?_⟩
  exact if_pos ⟨Nat.le_add_right _ _, Nat.add_lt_add_left hoff _⟩

/-- **The zero page stays pristine along a run exactly if every call is careful.**  The run starts
with any number of users' address spaces in which nothing is mapped, after `Init` has made the zero
page. -/
theorem pristine_always_iff (platform : Platform) (hg : platform.granularity = PageSize)
    {F : Frames τ} (enableFeatures : ℕ) {s s' : AnonState τ}
    (hfeature : enableFeatures.testBit 1 = true) (hinit : init F enableFeatures s = (d, s'))
    (hmem : S.mem = s'.mem) (hpmm : S.pmm = s'.pmm)
    (hspaces : ∀ i, ∃ env rangeMem holeMem, env.map.map = empty ∧
      user m platform env rangeMem holeMem = some (S.spaces i)) (ops : List (SystemOp ι)) :
    Always (step m d) (Pristine d) S ops ↔ Allowed (step m d) (Careful m d) S ops := by
  obtain ⟨huse, hz, hzero, hzeros⟩ := init_zeroPage hfeature hinit
  have hempty : ∀ i page pte, S.map i page ≠ some pte := by
    intro i page pte hpte
    obtain ⟨env, rangeMem, holeMem, hnone, hv⟩ := hspaces i
    obtain ⟨-, -, henv⟩ := anon_user hg hv
    rw [map, henv, hnone] at hpte
    cases hpte
  refine always_iff_allowed (Inv d) (Pristine d) (fun S op => pristine_step_iff hz huse op)
    (fun S op S' h _ => inv_step hz huse h) ⟨fun i => ?_, ?_, ?_, ?_, ?_⟩ ⟨?_, ?_, ?_⟩ ops
  · obtain ⟨env, rangeMem, holeMem, -, hv⟩ := hspaces i
    exact (anon_user hg hv).1
  · rw [hpmm]
    exact hzero
  · exact fun i page pte hpte => absurd hpte (hempty i page pte)
  · exact fun i _ page _ pte _ hpte => absurd hpte (hempty i page pte)
  · exact fun i page pte hpte => absurd hpte (hempty i page pte)
  · rw [hmem]
    exact hzeros
  · exact fun i page pte hpte => absurd hpte (hempty i page pte)
  · exact fun i vaddr pte hpte => absurd hpte (hempty i _ pte)

/-! ### Two address spaces -/

/-- Two fresh address spaces. -/
def freshPair : AnonSystem Bool ℕ (List ℕ) where
  spaces _ := freshUser.get freshUser_isSome
  mem := (fresh 3).2.mem
  pmm := (fresh 3).2.pmm
  coresReady := true
  written _ _ := 0#8

/-- Both allocate a page. -/
def bothAlloc : List (SystemOp Bool) := [.alloc true 0x1000 0 1#64 {}, .alloc false 0x1000 0 1#64 {}]

/-- What the first byte of the two pages reads, and what was written there. -/
def firstBytes (S : AnonSystem Bool ℕ (List ℕ)) : List (Option (BitVec 8) × BitVec 8) :=
  [true, false].map fun i => (((S.map i).hatGetMap 0x1000).map S.mem, S.written i 0x1000)

/-- Pages that are allocated, but not written, read as zero, whatever the programs try. -/
theorem pristine_always_iff_unwritten :
    Always (step .counting (fresh 3).1) (Pristine (fresh 3).1) freshPair
      (bothAlloc ++ [.store true 0x1000 7#8, .setFlags false 0x1000 0#64, .copyIn true 0x1000 [0#8, 0#8],
        .free true 0x1000]) := by
  have hv : ∀ i : Bool, ∃ env rangeMem holeMem, env.map.map = empty ∧
      user .counting .x86 env rangeMem holeMem = some (freshPair.spaces i) := fun _ =>
    ⟨freshEnv 3, _, _, rfl, (some_get freshUser_isSome).symm⟩
  exact (pristine_always_iff .x86 rfl 3 (by decide) rfl rfl rfl hv _).mpr
    (by decide +kernel)

/-- **Three ways to break it.**  `SetFlags` makes the zero page writable: what one space stores is
read in the other one.  `CopyIn` writes to the zero page itself.  A write fault gives a page that
was never written, and that reads what its last owner has left. -/
theorem zeroPage_breaks :
    (run (step .counting (fresh 3).1) freshPair
      (bothAlloc ++ [.setFlags true 0x1000 1#64, .store true 0x1000 7#8])).map firstBytes =
        some [(some 7#8, 7#8), (some 7#8, 0#8)] ∧
    (run (step .counting (fresh 3).1) freshPair
      (bothAlloc ++ [.copyIn true 0x1000 [7#8]])).map firstBytes =
        some [(some 7#8, 7#8), (some 7#8, 0#8)] ∧
    (run (step .counting (fresh 3).1) freshPair
      (bothAlloc ++ [.fault true 0x1000 { write := true }])).map firstBytes =
        some [(some 0xFF#8, 0#8), (some 0#8, 0#8)] := by
  refine ⟨?_, ?_, ?_⟩ <;> decide +kernel

end AnonSystem

end Northport.Memory
