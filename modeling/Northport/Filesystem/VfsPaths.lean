/-
# Lookups and paths

A lookup in which no node leaves the cache reaches the node that it returns, whatever `.`
and `..` there were among the segments.  The path of a node that is reached is the plain
path with the names on the way, and its lookup goes the same way again.
-/
import Northport.Filesystem.VfsTree

namespace Northport.Filesystem

open Lib Syslib TreeCache List Option Url FsDrivers

variable {drivers : FsDrivers} {mountpoints : List VfsMountInfo} {t t' : TreeCache}
  {handles : List ℕ} {root x y id : VfsId} {name : List UInt8} {names : List (List UInt8)}
  {i j : ℕ} {a b : CachedNode} {mem : List UInt8} {size : ℕ}

/-! ### A lookup reaches what it returns -/

/-- The id that `VfsFindChild` returns for a node that is reached: one that is reached as well, or
that of a child. -/
lemma Reach.find_cases (hdrivers : TreeDrivers drivers)
    (htable : MountTable drivers mountpoints root) (hc : Sane mountpoints t handles)
    (h : Reach drivers root t names y)
    (hfind : drivers.vfsFindChild mountpoints t y name = some (some x, t')) :
    Grows t t' ∧ ((∃ names', Reach drivers root t names' x) ∨
      ∃ name k, Child drivers y.driverId y.vnodeId name k ∧ x = ⟨y.driverId, k⟩) := by
  have hname : trimName name ≠ [] := by
    intro hnil
    rw [vfsFindChild, if_pos hnil] at hfind
    cases hfind
  by_cases hdots : trimName name = dotDot
  · -- the trailing NULs do not matter
    have hdotDot : drivers.vfsFindChild mountpoints t y name =
        drivers.vfsFindChild mountpoints t y dotDot := by
      rw [vfsFindChild, vfsFindChild, hdots,
        show trimName dotDot = dotDot by decide]
    rw [hdotDot] at hfind
    rcases eq_nil_or_concat' names with rfl | ⟨names', name', rfl⟩
    · obtain rfl := reach_nil h
      obtain ⟨t₁, -, heq⟩ := hc.vfsFindChild_root hdrivers htable h.plain
      cases heq.symm.trans hfind
    · obtain ⟨y', hy', ⟨t₁, hgrows, heq⟩, -⟩ := h.up hdrivers htable hc
      obtain ⟨hx, rfl⟩ := Prod.mk.inj (some.inj (heq.symm.trans hfind))
      exact ⟨hgrows, .inl ⟨names', some.inj hx ▸ hy'⟩⟩
  · obtain ⟨data, t₁, hgrows, heq⟩ := hc.vfsFindChild hdrivers h.plain (h.api hc htable) hname
      fun hboth => hdots hboth.1
    rw [heq] at hfind
    obtain ⟨k, hk, hpair⟩ := map_eq_some_iff.mp hfind
    obtain ⟨hite, rfl⟩ := Prod.mk.inj hpair
    obtain ⟨hnull, hx⟩ := ite_none_left_eq_some.mp hite
    cases hx
    refine ⟨hgrows, ?_⟩
    by_cases hdot : trimName name = dot
    · rw [hdot] at hk
      obtain rfl := hdrivers.self _ _ _ _ hk
      exact .inl ⟨names, h⟩
    · exact .inr ⟨trimName name, k, hdrivers.child _ _ _ _ _ hname hdot hdots hk hnull, rfl⟩

/-- The root of a mounted file system is no link. -/
lemma Sane.plain_of_root {fs : ℕ} (hc : Sane mountpoints t handles)
    (htable : MountTable drivers mountpoints root) (hb : t[j]? = some b) (hid : b.id = ⟨fs, 1⟩)
    (hfs : fs ≠ 0) : IsPlain t ⟨fs, 1⟩ := by
  refine ⟨⟨hfs, Nat.one_ne_zero⟩, j, b, hb, hid, ?_⟩
  obtain ⟨hbond, hroot⟩ := hc.2 j b hb
  by_cases hnull : b.bond = .null
  · exact hroot (by rw [hid]) hnull
  · -- nothing is mounted on a root
    obtain ⟨hdriver, e, he, hdir, -⟩ := hbond hnull
    obtain ⟨-, -, hvnode⟩ := htable.mounted e he (hdir ▸ hdriver)
    rw [hdir, hid] at hvnode
    exact absurd rfl hvnode

/-- **One step of a lookup**: the node to which the child is resolved is reached, too. -/
lemma Reach.resolve (htable : MountTable drivers mountpoints root)
    (hkeep : ∀ d n data, drivers.exitCache d n data = false) (hc : Sane mountpoints t handles)
    (hc' : Sane mountpoints t' (j :: handles))
    (h : (∃ names', Reach drivers root t names' x) ∨ ∃ names y name k,
      Reach drivers root t names y ∧ Child drivers y.driverId y.vnodeId name k ∧
        x = ⟨y.driverId, k⟩)
    (hget : t.getVfsNode drivers.toCacheDrivers x true = some (some j, t')) :
    ∃ b names', t'[j]? = some b ∧ Reach drivers root t' names' b.id := by
  have hgrows := getVfsNode_grows hkeep hget
  rcases h with ⟨names', hx⟩ | ⟨names, y, name, k, hy, hchild, rfl⟩
  · obtain ⟨j', t₁, b, heq, hhit⟩ := hc.1.hit_plain drivers.toCacheDrivers hx.plain
    obtain ⟨hj, rfl⟩ := Prod.mk.inj (some.inj (heq.symm.trans hget))
    cases hj
    exact ⟨b, names', hhit.slot, by rw [hhit.id]; exact hx.mono hgrows⟩
  · rcases getVfsNode_cases hget with ⟨hlookup, hplain⟩ |
      ⟨l, t₁, t₂, node, h₁, hnode, hlink, -, h₂, rfl⟩
    · obtain ⟨hdriver, hvnode, b, hb, hid⟩ := hlookup.found
      refine ⟨b, names ++ [name], hb, ?_⟩
      rw [hid]
      exact .child (hy.mono hgrows) hchild ⟨⟨hdriver, hvnode⟩, j, b, hb, hid, hplain j b rfl rfl hb⟩
    · obtain ⟨hdriver, hvnode, b₂, hb₂, hbid₂⟩ := h₂.found
      rcases h₁.of_bond hnode h₂ with ⟨⟨⟩, -⟩ | ⟨-, -, d, hd, hdid, hdnode⟩
      -- the child is a mountpoint
      have hbond : d.bond ≠ .null := by
        intro hnull
        rw [hdnode.2.2, hnull] at hdriver
        exact hdriver rfl
      obtain ⟨-, e, -, -, hroot⟩ := (hc.2 l d hd).1 hbond
      have hlinked : Linked t ⟨y.driverId, k⟩ ⟨e.driverId, 1⟩ :=
        ⟨l, d, hd, hdid, hdnode.2.1 ▸ hlink, hroot⟩
      obtain ⟨b, hb, hsame⟩ := grows_release t₂ l j b₂ hb₂ (hbid₂ ▸ hdriver)
      have hbid : b.id = ⟨e.driverId, 1⟩ := by rw [hsame.1, hbid₂, hdnode.2.2, hroot]
      rw [hdnode.2.2, hroot] at hdriver
      refine ⟨b, names ++ [name], hb, ?_⟩
      rw [hbid]
      exact .mount (hy.mono hgrows) hchild (hlinked.mono hy.plain.1.1 hgrows)
        (hc'.plain_of_root htable hb hbid hdriver)

section

variable (hdrivers : TreeDrivers drivers) (htable : MountTable drivers mountpoints root)
  (hkeep : ∀ d n data, drivers.exitCache d n data = false)

include hdrivers htable hkeep

/-- **The loop of `VfsLookup` reaches what it returns**, by induction on its steps. -/
lemma lookupLoop_reach {path segment : StringSpan} {fuel : ℕ}
    (hc : Sane mountpoints t [i]) (ha : t[i]? = some a) (h : Reach drivers root t names a.id)
    (hloop : drivers.lookupLoop mountpoints mem path fuel t (some i) segment =
      some (some id, t')) : Sane mountpoints t' [] ∧ ∃ names', Reach drivers root t' names' id := by
  have hkept := Sane.keptBy hdrivers.rootType mountpoints
  induction fuel generalizing t i a names segment with
  | zero => exact absurd hloop (by simp [lookupLoop])
  | succ fuel ih =>
    rw [lookupLoop, ha, bind_some] at hloop
    split_ifs at hloop with hend
    · obtain ⟨hid, rfl⟩ := Prod.mk.inj (some.inj hloop)
      cases hid
      exact ⟨hkept.release hc, names, h.mono (grows_release t i)⟩
    · obtain ⟨⟨r, t₁⟩, hfind, hloop⟩ := bind_eq_some_iff.mp hloop
      cases r with
      | none => cases hloop
      | some childId =>
        obtain ⟨⟨r, t₂⟩, hget, hloop⟩ := bind_eq_some_iff.mp hloop
        obtain ⟨segment', -, hloop⟩ := bind_eq_some_iff.mp hloop
        obtain ⟨hgrows, hcases⟩ := h.find_cases hdrivers htable hc hfind
        have hc₁ := hkept.vfsFindChild hc _ hfind
        have hc₂ := hkept.getVfsNode hc₁ hget
        cases r with
        | none =>
          cases fuel with
          | zero => exact absurd hloop (by simp [lookupLoop])
          | succ fuel =>
            rw [lookupLoop] at hloop
            split_ifs at hloop
            cases hloop
        | some j =>
          have hcases' : (∃ names', Reach drivers root t₁ names' childId) ∨ ∃ names y name k,
              Reach drivers root t₁ names y ∧ Child drivers y.driverId y.vnodeId name k ∧
                childId = ⟨y.driverId, k⟩ := by
            rcases hcases with ⟨names', hx⟩ | ⟨name, k, hchild, hx⟩
            · exact .inl ⟨names', hx.mono hgrows⟩
            · exact .inr ⟨names, a.id, name, k, h.mono hgrows, hchild, hx⟩
          obtain ⟨b, names', hb, hreach⟩ := Reach.resolve htable hkeep hc₁ hc₂ hcases' hget
          obtain ⟨b', hb', hsame⟩ := grows_release t₂ i j b hb hreach.plain.1.1
          have hreach' : Reach drivers root (t₂.release i) names' b'.id := by
            rw [hsame.1]
            exact hreach.mono (grows_release t₂ i)
          exact ih (hkept.release (hkept.perm hc₂ (Perm.swap i j []))) hb' hreach' hloop

/-- **A lookup reaches what it returns.** -/
lemma vfsLookup_reach (hc : Sane mountpoints t [])
    (hlookup : drivers.vfsLookup mountpoints t root mem size = some (some id, t')) :
    Sane mountpoints t' [] ∧ ∃ names, Reach drivers root t' names id := by
  have hkept := Sane.keptBy hdrivers.rootType mountpoints
  rw [vfsLookup] at hlookup
  split_ifs at hlookup
  · cases hlookup
  obtain ⟨b, -, hlookup⟩ := bind_eq_some_iff.mp hlookup
  split_ifs at hlookup
  · cases hlookup
  obtain ⟨url, -, hlookup⟩ := bind_eq_some_iff.mp hlookup
  obtain ⟨segment, -, hlookup⟩ := bind_eq_some_iff.mp hlookup
  obtain ⟨⟨r, t₁⟩, hget, hlookup⟩ := bind_eq_some_iff.mp hlookup
  have hc₁ := hkept.getVfsNode hc hget
  cases r with
  | none =>
    rw [lookupLoop] at hlookup
    split_ifs at hlookup
    cases hlookup
  | some i =>
    -- nothing is mounted on the root directory
    have hroot : ∃ a, t₁[i]? = some a ∧ a.id = root ∧ a.type ≠ .link := by
      rcases getVfsNode_cases hget with ⟨hlookup, hplain⟩ |
        ⟨l, t₂, t₃, node, h₁, hnode, -, -, h₂, rfl⟩
      · obtain ⟨-, -, a, ha, hid⟩ := hlookup.found
        exact ⟨a, ha, hid, hplain i a rfl rfl ha⟩
      · obtain ⟨hdriver, -, -⟩ := h₂.found
        rcases h₁.of_bond hnode h₂ with ⟨⟨⟩, -⟩ | ⟨-, -, d, hd, hdid, hdnode⟩
        obtain ⟨hne, e, he, hdir, -⟩ := (hc.2 l d hd).1 (by
          intro hnull
          rw [hdnode.2.2, hnull] at hdriver
          exact hdriver rfl)
        obtain ⟨-, -, hvnode⟩ := htable.mounted e he (hdir ▸ hne)
        rw [hdir, hdid, htable.vnode] at hvnode
        exact absurd rfl hvnode
    obtain ⟨a, ha, hid, htype⟩ := hroot
    have hreach : Reach drivers root t₁ [] a.id := by
      rw [hid]
      exact .root ⟨⟨htable.null, htable.vnode ▸ Nat.one_ne_zero⟩, i, a, ha, hid, htype⟩
    exact lookupLoop_reach hdrivers htable hkeep hc₁ ha hreach hlookup

end

/-! ### A plain path is looked up -/

/-- The segment of a plain path after the names `pre`, when `post` are left. -/
def segmentAt (pre : List (List UInt8)) : List (List UInt8) → StringSpan
  | [] => .empty
  | name :: _ => ⟨(joined pre).length + 1, (joined pre).length + 1 + name.length⟩

lemma size_segmentAt (pre post : List (List UInt8)) (hname : Plain name) :
    (segmentAt pre (name :: post)).size ≠ 0 := by
  have hpos := length_pos_iff.mpr hname.1
  rw [segmentAt, StringSpan.size]
  rw [if_pos (Nat.le_add_right _ _), Nat.add_sub_cancel_left]
  exact hpos.ne'

/-- `GetNextSeg` goes on to the next name. -/
lemma getNextSeg_segmentAt (pre post : List (List UInt8)) (rest : List UInt8)
    (hname : Plain name) (hpost : ∀ name ∈ post, Plain name) :
    getNextSeg (joined (pre ++ name :: post) ++ 0 :: rest)
      ⟨0, (joined (pre ++ name :: post)).length⟩ (segmentAt pre (name :: post)) =
        some (segmentAt (pre ++ [name]) post) := by
  have hstop : (segmentAt pre (name :: post)).stop = (joined (pre ++ [name])).length := by
    simp [segmentAt, joined]
    omega
  have hsize := size_segmentAt pre post hname
  cases post with
  | nil => exact getNextSeg_end hsize hstop _
  | cons name' post =>
    have hseg := getNextSeg_joined (pre ++ [name]) post
      (hpost name' mem_cons_self) rest (.inr ⟨hsize, hstop⟩)
    rw [append_assoc] at hseg
    exact hseg

/-- The child with the next name is found, and resolved to the next node on the way. -/
lemma Reach.next (hdrivers : TreeDrivers drivers) (mountpoints : List VfsMountInfo)
    (h : Reach drivers root t (names ++ [name]) x) : ∃ y, Reach drivers root t names y ∧
      ∀ t₁ handles, Grows t t₁ → Sane mountpoints t₁ handles →
        ∃ childId t₂ j t₃ b,
          drivers.vfsFindChild mountpoints t₁ y name = some (some childId, t₂) ∧
          t₂.getVfsNode drivers.toCacheDrivers childId true = some (some j, t₃) ∧
          Grows t₁ t₃ ∧ Sane mountpoints t₃ (j :: handles) ∧ t₃[j]? = some b ∧ b.id = x := by
  have hkept := Sane.keptBy hdrivers.rootType mountpoints
  obtain ⟨y, k, hy, hchild, hplain, hx⟩ := h.last
  refine ⟨y, hy, fun t₁ handles hgrows hc₁ => ?_⟩
  have hname : trimName name = name := trimName_plain hchild.plain
  obtain ⟨data, t₂, hgrows₂, heq⟩ := hc₁.vfsFindChild hdrivers (hy.mono hgrows).plain hchild.api
    (show trimName name ≠ [] by rw [hname]; exact hchild.plain.1)
    (fun hboth => hchild.notDots (hname ▸ hboth.1))
  rw [hname, hchild.found, map_some, if_neg hchild.handle.1] at heq
  have hc₂ := hkept.vfsFindChild hc₁ _ heq
  have hplain₂ := hplain.mono (hgrows.trans hgrows₂)
  have hhit : ∃ j t₃ b, t₂.getVfsNode drivers.toCacheDrivers ⟨y.driverId, k⟩ true =
      some (some j, t₃) ∧ Hit t₂ handles x j t₃ b := by
    rcases hx with rfl | ⟨fs, rfl, hlink⟩
    · exact hc₂.1.hit_plain drivers.toCacheDrivers hplain₂
    · exact hc₂.1.hit_link drivers.toCacheDrivers
        (hlink.mono hy.plain.1.1 (hgrows.trans hgrows₂)) ⟨hy.plain.1.1, hchild.handle.1⟩ hplain₂
  obtain ⟨j, t₃, b, hget, hhit⟩ := hhit
  exact ⟨_, t₂, j, t₃, b, heq, hget, hgrows₂.trans hhit.grows, hkept.getVfsNode hc₂ hget,
    hhit.slot, hhit.id⟩

/-- **The loop of `VfsLookup` goes the way**, by induction on the names behind it. -/
lemma Reach.lookupLoop (hdrivers : TreeDrivers drivers) {all post : List (List UInt8)}
    (rest : List UInt8) (hall : ∀ name ∈ all, Plain name) (hpost : names ++ post = all)
    (hc : Sane mountpoints t [i]) (ha : t[i]? = some a) (hroot : a.id = root)
    (h : Reach drivers root t names x) (fuel : ℕ) : ∃ t' j b,
      drivers.lookupLoop mountpoints (joined all ++ 0 :: rest) ⟨0, (joined all).length⟩
          (fuel + names.length) t (some i) (segmentAt [] all) =
        drivers.lookupLoop mountpoints (joined all ++ 0 :: rest) ⟨0, (joined all).length⟩
          fuel t' (some j) (segmentAt names post) ∧
      t'[j]? = some b ∧ b.id = x ∧ Sane mountpoints t' [j] ∧ Grows t t' := by
  have hkept := Sane.keptBy hdrivers.rootType mountpoints
  induction names using reverseRecOn generalizing x post fuel with
  | nil =>
    obtain rfl := reach_nil h
    exact ⟨t, i, a, by rw [← hpost]; rfl, ha, hroot, hc, .refl t⟩
  | append_singleton names name ih =>
    obtain ⟨y, hy, hnext⟩ := h.next hdrivers mountpoints
    rw [append_assoc, singleton_append] at hpost
    obtain ⟨t₁, l, d, heq, hd, hdid, hc₁, hgrows⟩ := ih hpost hy (fuel + 1)
    obtain ⟨childId, t₂, j, t₃, b, hfind, hget, hgrows₃, hc₃, hb, hbid⟩ := hnext t₁ [l] hgrows hc₁
    have hname : Plain name := hall name (by rw [← hpost]; simp)
    have hpost' : ∀ name ∈ post, Plain name := fun name hname =>
      hall name (by rw [← hpost]; simp [hname])
    obtain ⟨b', hb', hsame⟩ := grows_release t₃ l j b hb (hbid ▸ h.plain.1.1)
    refine ⟨t₃.release l, j, b', ?_, hb', hsame.1.trans hbid,
      hkept.release (hkept.perm hc₃ (Perm.swap l j [])),
      (hgrows.trans hgrows₃).trans (grows_release t₃ l)⟩
    have hfuel : fuel + (names ++ [name]).length = fuel + 1 + names.length := by
      simp
      omega
    have hchars : StringSpan.chars (joined (names ++ name :: post) ++ 0 :: rest)
        ⟨(joined names).length + 1, (joined names).length + 1 + name.length⟩ = name :=
      chars_joined names post rest
    have hseg := getNextSeg_segmentAt names post rest hname hpost'
    rw [hpost] at hchars hseg
    rw [hfuel, heq, lookupLoop, hd, bind_some,
      if_neg (size_segmentAt names post hname), hdid]
    rw [segmentAt] at hseg ⊢
    rw [hchars, hfind, bind_some]
    dsimp only
    rw [hget, bind_some]
    rw [hseg, bind_some]

/-- **The path of a node that is reached is looked up to the node.** -/
lemma Reach.vfsLookup (hdrivers : TreeDrivers drivers) (hc : Sane mountpoints t [])
    (h : Reach drivers root t names x) (hroot : IsPlain t root) (hne : names ≠ [])
    (rest : List UInt8) : ∃ t', drivers.vfsLookup mountpoints t root
      (joined names ++ 0 :: rest) (joined names).length = some (some x, t') := by
  have hkept := Sane.keptBy hdrivers.rootType mountpoints
  have hnames := h.names_plain
  obtain ⟨url, hparse, hpath⟩ := parse_joined hne hnames rest
  obtain ⟨i, t₁, a, hget, hhit⟩ := hc.1.hit_plain drivers.toCacheDrivers hroot
  have hc₁ := hkept.getVfsNode hc hget
  have hlen : names.length ≤ (joined names).length := by
    clear * -
    induction names with
    | nil => exact zero_le
    | cons name names ih =>
      simp
      omega
  obtain ⟨fuel, hfuel⟩ : ∃ fuel, (joined names ++ 0 :: rest).length + 1 =
      fuel + 1 + names.length :=
    ⟨(joined names ++ 0 :: rest).length - names.length, by simp; omega⟩
  obtain ⟨t₂, j, b, heq, hb, hbid, -⟩ := (h.mono hhit.grows).lookupLoop hdrivers rest hnames
    (append_nil names) hc₁ hhit.slot hhit.id (fuel + 1)
  refine ⟨t₂.release j, ?_⟩
  have hfirst : (joined names ++ 0 :: rest)[0]? = some 47 := by
    obtain ⟨name, names', rfl⟩ := exists_cons_of_ne_nil hne
    rfl
  have hseg : getNextSeg (joined names ++ 0 :: rest) url.path .empty =
      some (segmentAt [] names) := by
    obtain ⟨name, names', rfl⟩ := exists_cons_of_ne_nil hne
    rw [hpath]
    exact getNextSeg_joined [] names' (hnames name mem_cons_self) rest (.inl ⟨rfl, rfl⟩)
  rw [FsDrivers.vfsLookup, if_neg (fun hzero => joined_ne_nil hne
    (length_eq_zero_iff.mp hzero)), hfirst, bind_some, if_neg (by decide), hparse,
    bind_some, hseg, bind_some, hget, bind_some, hpath, hfuel]
  rw [heq, FsDrivers.lookupLoop, hb, bind_some, if_pos (show (segmentAt names []).size = 0 from
    rfl), hbid]

/-! ### Lookups that evict nothing -/

/-- The drivers, when they let no node leave the cache: a call that would evict a node fails. -/
def FsDrivers.keeping (drivers : FsDrivers) : FsDrivers :=
  { drivers with exitCache := fun _ _ _ => false }

lemma below_getVfsNodeInternal (t : TreeCache) (id : VfsId) :
    Below (t.getVfsNodeInternal drivers.keeping.toCacheDrivers id)
      (t.getVfsNodeInternal drivers.toCacheDrivers id) := by
  have hreplace : ∀ (t : TreeCache) (k : ℕ) (store : CachedNode),
      Below (t.replace drivers.keeping.toCacheDrivers id k store)
        (t.replace drivers.toCacheDrivers id k store) :=
    fun t k store => .ite (.ite (.refl _) (.none _)) (.refl _)
  refine .ite (.refl _) ?_
  cases t.find id with
  | some i => exact .refl _
  | none =>
    cases t.chooseLoop t.length 0 none with
    | mk r t =>
      cases r with
      | none => exact .refl _
      | some k => exact .bind (.refl _) (hreplace t k)

lemma below_getVfsNode (t : TreeCache) (id : VfsId) (traverseLinks : Bool) :
    Below (t.getVfsNode drivers.keeping.toCacheDrivers id traverseLinks)
      (t.getVfsNode drivers.toCacheDrivers id traverseLinks) := by
  refine .bind (below_getVfsNodeInternal t id) ?_
  rintro ⟨_ | i, t⟩
  · exact .refl _
  · dsimp only
    cases t[i]? with
    | none => exact .refl _
    | some node => exact .ite (.map (below_getVfsNodeInternal t node.bond) _) (.refl _)

lemma below_vfsFindChild (mountpoints : List VfsMountInfo) (t : TreeCache) (id : VfsId)
    (name : List UInt8) : Below (drivers.keeping.vfsFindChild mountpoints t id name)
      (drivers.vfsFindChild mountpoints t id name) := by
  refine .ite (.refl _) (.bind (below_getVfsNode t id true) ?_)
  rintro ⟨_ | i, t⟩
  · exact .refl _
  · refine .bind (.refl _) fun dirNode => .ite (.refl _) (.ite ?_ (.refl _))
    cases occludedId mountpoints dirNode.id.driverId with
    | none => exact .refl _
    | some parentId => exact .bind (below_getVfsNode t parentId false) fun _ => .refl _

lemma below_lookupLoop (mem : List UInt8) (path : StringSpan) (fuel : ℕ) (t : TreeCache)
    (selectedNode : Option ℕ) (segment : StringSpan) :
    Below (drivers.keeping.lookupLoop mountpoints mem path fuel t selectedNode segment)
      (drivers.lookupLoop mountpoints mem path fuel t selectedNode segment) := by
  induction fuel generalizing t selectedNode segment with
  | zero => exact .refl _
  | succ fuel ih =>
    cases selectedNode with
    | none => exact .refl _
    | some i =>
      refine .bind (.refl _) fun node => .ite (.refl _)
        (.bind (below_vfsFindChild mountpoints t node.id _) ?_)
      rintro ⟨_ | childId, t⟩
      · exact .refl _
      · exact .bind (below_getVfsNode t childId true) fun r => .bind (.refl _) fun segment =>
          ih _ _ segment

/-- **What a lookup returns without evicting a node, it returns.** -/
lemma vfsLookup_of_keeping {r : Option VfsId × TreeCache}
    (h : drivers.keeping.vfsLookup mountpoints t root mem size = some r) :
    drivers.vfsLookup mountpoints t root mem size = some r := by
  have hbelow : Below (drivers.keeping.vfsLookup mountpoints t root mem size)
      (drivers.vfsLookup mountpoints t root mem size) :=
    .ite (.refl _) (.bind (.refl _) fun _ => .ite (.refl _) (.bind (.refl _) fun _ =>
      .bind (.refl _) fun _ => .bind (below_getVfsNode t root true) fun _ =>
        below_lookupLoop _ _ _ _ _ _))
  exact hbelow r h

/-! ### There and back -/

lemma child_of_keeping {d n k : ℕ} : Child drivers.keeping d n name k ↔ Child drivers d n name k :=
  ⟨fun h => { h with }, fun h => { h with }⟩

lemma TreeDrivers.keeping (h : TreeDrivers drivers) : TreeDrivers drivers.keeping :=
  { h with
    child := fun d n data name k h₁ h₂ h₃ h₄ h₅ =>
      child_of_keeping.mpr (h.child d n data name k h₁ h₂ h₃ h₄ h₅) }

lemma MountTable.keeping (h : MountTable drivers mountpoints root) :
    MountTable drivers.keeping mountpoints root :=
  { h with }

lemma Reach.of_keeping (h : Reach drivers.keeping root t names x) :
    Reach drivers root t names x := by
  induction h with
  | root h => exact .root h
  | child _ hchild h ih => exact .child ih (child_of_keeping.mp hchild) h
  | mount _ hchild hlink h ih => exact .mount ih (child_of_keeping.mp hchild) hlink h

/-- The root directory is in the cache with every node that is reached from it. -/
lemma Reach.root_plain (h : Reach drivers root t names x) : IsPlain t root := by
  induction h with
  | root h => exact h
  | child _ _ _ ih => exact ih
  | mount _ _ _ _ ih => exact ih

/-- **A lookup, the path of what it returns, and the lookup of the path.** -/
lemma vfsLookup_vfsGetPath (hdrivers : TreeDrivers drivers)
    (htable : MountTable drivers mountpoints root) (hc : Sane mountpoints t [])
    (hlookup : drivers.keeping.vfsLookup mountpoints t root mem size = some (some id, t'))
    (hid : id ≠ root) : ∃ path t₁ n,
      (∀ fuel ≥ n, drivers.vfsGetPath mountpoints t' fuel id = some (path, t₁)) ∧
      ∀ rest, ∃ t₂, drivers.vfsLookup mountpoints t₁ root (path ++ 0 :: rest) path.length =
        some (some id, t₂) := by
  obtain ⟨hc', names, hreach⟩ := vfsLookup_reach hdrivers.keeping htable.keeping
    (fun _ _ _ => rfl) hc hlookup
  have hreach := hreach.of_keeping
  have hne : names ≠ [] := by
    rintro rfl
    exact hid (reach_nil hreach)
  obtain ⟨t₁, hgrows, hc₁, hloop⟩ := hreach.pathLoop hdrivers htable hc' []
  refine ⟨joined names, t₁, names.length + 1, fun fuel hfuel => ?_, fun rest => ?_⟩
  · obtain ⟨n, rfl⟩ : ∃ n, fuel = n + names.length + 1 := ⟨fuel - names.length - 1, by omega⟩
    rw [vfsGetPath, hloop, nil_append, map_some, map_some,
      pathOf_plain hreach.names_plain]
    rfl
  · have hreach₁ := hreach.mono hgrows
    exact hreach₁.vfsLookup hdrivers hc₁ hreach₁.root_plain hne rest

end Northport.Filesystem
