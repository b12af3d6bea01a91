import Mathlib.Data.List.Perm.Basic
import Reckoner.Proofs.Page.Accounting

/-! Placed code stays where it is until it is released. A house is a pool with its tenants, the
code that was placed and not yet released; the users of a page are its tenants, so that a page is
emptied only when nobody is left in it. -/
namespace Reckoner

structure Tenant where
  placement : Placement
  code : List UInt8
  deriving DecidableEq, Repr

namespace Tenant

def page (t : Tenant) : Nat := t.placement.page

def start (t : Tenant) : Nat := t.placement.offset

def stop (t : Tenant) : Nat := t.placement.offset + t.code.length

@[simp] theorem page_mk (id offset : Nat) (code : List UInt8) :
    Tenant.page ⟨⟨id, offset⟩, code⟩ = id := rfl

def Apart (t u : Tenant) : Prop := t.page = u.page → t.stop ≤ u.start ∨ u.stop ≤ t.start

structure LivesIn (t : Tenant) (page : Page) : Prop where
  aligned : Pool.codeAlign ∣ t.start
  stop_le : t.stop ≤ page.used
  code : (page.memory.drop t.start).take t.code.length = t.code

theorem LivesIn.write {t : Tenant} {page : Page} (h : t.LivesIn page) (hfits : page.Fits)
    {offset : Nat} {code : List UInt8} (hoffset : page.used ≤ offset)
    (hroom : offset + code.length ≤ page.length) : t.LivesIn (page.write offset code) := by
  have hstop : t.start + t.code.length ≤ offset := Nat.le_trans h.stop_le hoffset
  have hmemory := hfits.memory
  refine ⟨h.aligned, ?_, ?_⟩
  · change t.start + t.code.length ≤ offset + code.length
    omega
  · have hbelow : (((page.memory.take offset ++ code) ++
        page.memory.drop (offset + code.length)).drop t.start).take t.code.length =
        (page.memory.drop t.start).take t.code.length := by
      rw [List.append_assoc, List.drop_append_of_le_length (by rw [List.length_take]; omega),
        List.take_append_of_le_length (by rw [List.length_drop, List.length_take]; omega),
        List.drop_take, List.take_take]
      congr 1
      omega
    exact hbelow.trans h.code

theorem livesIn_write {page : Page} (hfits : page.Fits) {id offset : Nat} {code : List UInt8}
    (haligned : Pool.codeAlign ∣ offset) (hroom : offset + code.length ≤ page.length) :
    LivesIn ⟨⟨id, offset⟩, code⟩ (page.write offset code) := by
  have hmemory := hfits.memory
  have hlength : (page.memory.take offset).length = offset := by
    rw [List.length_take]
    omega
  refine ⟨haligned, Nat.le_refl _, ?_⟩
  change (((page.memory.take offset ++ code) ++
    page.memory.drop (offset + code.length)).drop offset).take code.length = code
  rw [List.append_assoc, List.drop_append_of_le_length (Nat.le_of_eq hlength.symm),
    List.drop_of_length_le (Nat.le_of_eq hlength), List.nil_append,
    List.take_append_of_le_length (Nat.le_refl _), List.take_length]

end Tenant

def moveIn (tenants : List Tenant) (code : List UInt8) : Except Error Placement → List Tenant
  | .ok placement => tenants ++ [⟨placement, code⟩]
  | .error _ => tenants

def headcount (tenants : List Tenant) (id : Nat) : Nat := tenants.countP (·.page = id)

/-- Every user of a page is a tenant that lives there, apart from all others. -/
structure Hosts (pages : List Page) (tenants : List Tenant) : Prop where
  refs : ∀ (id : Nat) (page : Page), pages[id]? = some page → page.refs = headcount tenants id
  lives : ∀ t ∈ tenants, ∃ page, pages[t.page]? = some page ∧ t.LivesIn page
  apart : tenants.Pairwise Tenant.Apart

theorem headcount_eq_zero_iff {tenants : List Tenant} {id : Nat} :
    headcount tenants id = 0 ↔ ∀ t ∈ tenants, t.page ≠ id := by
  simp [headcount]

theorem headcount_append (tenants : List Tenant) (t : Tenant) (id : Nat) :
    headcount (tenants ++ [t]) id = headcount tenants id + if t.page = id then 1 else 0 := by
  simp [headcount, List.countP_singleton]

theorem headcount_eraseIdx {tenants : List Tenant} {k : Nat} {t : Tenant}
    (h : tenants[k]? = some t) (id : Nat) :
    headcount tenants id = headcount (tenants.eraseIdx k) id + if t.page = id then 1 else 0 := by
  obtain ⟨hk, ht⟩ := List.getElem?_eq_some_iff.1 h
  have hperm := List.getElem_cons_eraseIdx_perm hk
  rw [ht] at hperm
  have hcount := hperm.countP_eq (·.page = id)
  rw [List.countP_cons] at hcount
  simpa [headcount] using hcount.symm

namespace Hosts

variable {pages : List Page} {tenants : List Tenant} {id : Nat} {page : Page}

theorem livesIn (h : Hosts pages tenants) (hpage : pages[id]? = some page) {t : Tenant}
    (ht : t ∈ tenants) (hid : t.page = id) : t.LivesIn page := by
  subst hid
  obtain ⟨page', hpage', hlives⟩ := h.lives t ht
  obtain rfl : page = page' := Option.some.inj (hpage.symm.trans hpage')
  exact hlives

theorem modify (h : Hosts pages tenants) (hpage : pages[id]? = some page) {f : Page → Page}
    {tenants' : List Tenant} (hrefs : (f page).refs = headcount tenants' id)
    (hothers : ∀ j, id ≠ j → headcount tenants' j = headcount tenants j)
    (hlives : ∀ t ∈ tenants', t.page = id → t.LivesIn (f page))
    (hsubset : ∀ t ∈ tenants', t.page ≠ id → t ∈ tenants)
    (hapart : tenants'.Pairwise Tenant.Apart) : Hosts (pages.modify id f) tenants' where
  refs := by
    intro j page' hpage'
    by_cases hij : id = j
    · subst hij
      rw [List.getElem?_modify_eq, hpage] at hpage'
      cases hpage'
      exact hrefs
    · rw [List.getElem?_modify_ne _ _ hij] at hpage'
      rw [hothers j hij]
      exact h.refs j page' hpage'
  lives := by
    intro t ht
    by_cases hid : t.page = id
    · refine ⟨f page, ?_, hlives t ht hid⟩
      rw [hid, List.getElem?_modify_eq, hpage]
      rfl
    · obtain ⟨page', hpage', hlive⟩ := h.lives t (hsubset t ht hid)
      exact ⟨page', by rw [List.getElem?_modify_ne _ _ (Ne.symm hid), hpage'], hlive⟩
  apart := hapart

theorem protect (h : Hosts pages tenants) (hpage : pages[id]? = some page)
    (protection : Protection) :
    Hosts (pages.modify id fun page => { page with protection := protection }) tenants := by
  refine h.modify hpage (h.refs id page hpage) (fun _ _ => rfl) ?_ (fun _ ht _ => ht) h.apart
  intro t ht hid
  have hlive := h.livesIn hpage ht hid
  exact ⟨hlive.aligned, hlive.stop_le, hlive.code⟩

theorem renovate (h : Hosts pages tenants) (hpage : pages[id]? = some page)
    (hempty : headcount tenants id = 0) {f : Page → Page} (hrefs : (f page).refs = 0) :
    Hosts (pages.modify id f) tenants := by
  refine h.modify hpage (hrefs.trans hempty.symm) (fun _ _ => rfl) ?_ (fun _ ht _ => ht) h.apart
  intro t ht hid
  exact absurd hid (headcount_eq_zero_iff.1 hempty t ht)

theorem openPage (h : Hosts pages tenants) (length : Nat) :
    Hosts (pages ++ [Page.fresh length]) tenants where
  refs := by
    intro j page hpage
    by_cases hlt : j < pages.length
    · rw [List.getElem?_append_left hlt] at hpage
      exact h.refs j page hpage
    · have hempty : headcount tenants j = 0 := by
        rw [headcount_eq_zero_iff]
        rintro t ht rfl
        obtain ⟨page, hpage, -⟩ := h.lives t ht
        exact hlt (List.getElem?_eq_some_iff.1 hpage).1
      rw [List.getElem?_append_right (Nat.not_lt.1 hlt)] at hpage
      have hfresh : page = Page.fresh length := by
        simpa using List.mem_of_getElem? hpage
      rw [hfresh, hempty]
      rfl
  lives := by
    intro t ht
    obtain ⟨page, hpage, hlive⟩ := h.lives t ht
    have hlt := (List.getElem?_eq_some_iff.1 hpage).1
    exact ⟨page, by rw [List.getElem?_append_left hlt, hpage], hlive⟩
  apart := h.apart

theorem write (h : Hosts pages tenants) (hpage : pages[id]? = some page) (hfits : page.Fits)
    {offset : Nat} {code : List UInt8} (hoffset : page.used ≤ offset)
    (haligned : Pool.codeAlign ∣ offset) (hroom : offset + code.length ≤ page.length) :
    Hosts (pages.modify id fun page => page.write offset code)
      (tenants ++ [⟨⟨id, offset⟩, code⟩]) := by
  refine h.modify hpage ?_ ?_ ?_ ?_ ?_
  · rw [headcount_append, Tenant.page_mk, if_pos rfl, Page.write, h.refs id page hpage]
  · intro j hij
    rw [headcount_append, Tenant.page_mk, if_neg hij, Nat.add_zero]
  · intro t ht hid
    rcases List.mem_append.1 ht with ht | ht
    · exact (h.livesIn hpage ht hid).write hfits hoffset hroom
    · rw [List.mem_singleton] at ht
      subst ht
      exact Tenant.livesIn_write hfits haligned hroom
  · intro t ht hid
    rcases List.mem_append.1 ht with ht | ht
    · exact ht
    · rw [List.mem_singleton] at ht
      subst ht
      exact absurd rfl hid
  · refine List.pairwise_append.2 ⟨h.apart, List.pairwise_singleton _ _, ?_⟩
    intro t ht u hu hid
    rw [List.mem_singleton] at hu
    subst hu
    exact .inl (Nat.le_trans (h.livesIn hpage ht hid).stop_le hoffset)

/-- A tenant moves out, and whatever becomes of the page, those who stay are not disturbed. -/
theorem dismiss (h : Hosts pages tenants) {k : Nat} {t : Tenant} (ht : tenants[k]? = some t)
    (hpage : pages[t.page]? = some page) {f : Page → Page} (hrefs : (f page).refs = page.refs - 1)
    (hlives : 1 < page.refs → ∀ u : Tenant, u.LivesIn page → u.LivesIn (f page)) :
    Hosts (pages.modify t.page f) (tenants.eraseIdx k) := by
  have hcount := headcount_eraseIdx ht t.page
  rw [if_pos rfl, ← h.refs t.page page hpage] at hcount
  have hsublist := List.eraseIdx_sublist tenants k
  refine h.modify hpage (by omega) ?_ ?_ ?_ (h.apart.sublist hsublist)
  · intro j hij
    rw [headcount_eraseIdx ht j, if_neg hij, Nat.add_zero]
  · intro u hu hid
    have hpos : headcount (tenants.eraseIdx k) t.page ≠ 0 := by
      intro hzero
      exact headcount_eq_zero_iff.1 hzero u hu hid
    exact hlives (by omega) u (h.livesIn hpage (hsublist.subset hu) hid)
  · intro u hu _
    exact hsublist.subset hu

/-! The operations of a pool, from their outcomes. -/

variable {p : Pool} {code : List UInt8} {pack : Bool}

theorem acquired (h : Hosts p.pages tenants) {need : Nat} {q : Pool}
    {result : Except Error Nat} (hacquire : p.Acquisition need (result, q)) :
    Hosts q.pages tenants := by
  cases hacquire with
  | taken id rest hfree hlength hwritable => exact h
  | renewed id rest hfree hlength page hpage hexecutable => exact h.protect hpage .writable
  | notRenewed id rest hfree hlength page hpage hexecutable => exact h
  | opened hshort => exact h.openPage _
  | notOpened hshort => exact h

theorem placedAnew (h : Hosts p.pages tenants) (hpool : p.Accounted [])
    {outcome : Except Error Placement × Pool} (hplace : p.PlacingAnew code pack outcome) :
    Hosts outcome.2.pages (moveIn tenants code outcome.1) := by
  cases hplace with
  | noPage e q hacquire => exact h.acquired hacquire
  | inProgress id q hacquire hpack =>
    obtain ⟨-, -, page, hpage, hvacant, -, hroom⟩ := hpool.acquired hacquire
    exact (h.acquired hacquire).write hpage hvacant.toFits (Nat.le_of_eq hvacant.used)
      (Nat.dvd_zero _) (by omega)
  | executable id q hacquire hpack =>
    obtain ⟨-, -, page, hpage, hvacant, -, hroom⟩ := hpool.acquired hacquire
    have hwritten := (h.acquired hacquire).write hpage hvacant.toFits (Nat.le_of_eq hvacant.used)
      (Nat.dvd_zero _) (show 0 + code.length ≤ page.length by omega)
    exact hwritten.protect (Pool.getElem?_update hpage _) .executable
  | givenBack id q hacquire hpack =>
    obtain ⟨-, -, page, hpage, hvacant, -, hroom⟩ := hpool.acquired hacquire
    have hhosts := h.acquired hacquire
    -- The code is written and given up again, to a page that had no tenants all along.
    have hempty : headcount tenants id = 0 := by
      rw [← hhosts.refs id page hpage]
      exact hvacant.refs
    change Hosts ((q.pages.modify id fun page => page.write 0 code).modify id
      fun page => { page with refs := page.refs - 1, used := 0 }) tenants
    rw [List.modify_modify_eq]
    refine hhosts.renovate hpage hempty ?_
    change page.refs + 1 - 1 = 0
    rw [hvacant.refs]

theorem placed (h : Hosts p.pages tenants) (hpool : p.Accounted [])
    {outcome : Except Error Placement × Pool} (hplace : p.Placing code pack outcome) :
    Hosts outcome.2.pages (moveIn tenants code outcome.1) := by
  cases hplace with
  | joined id hpending hpack hroom =>
    obtain ⟨page, hpage, hoccupied⟩ := hpool.occupied id (hpool.pending id hpending)
    rw [Pool.lengthOf_eq hpage] at hroom
    refine h.write hpage hoccupied.toFits ?_ (dvd_alignUp _ _) hroom
    rw [Pool.usedOf_eq hpage]
    exact le_alignUp (by decide) page.used
  | notFlushed id hpending hpack hfull => exact h
  | flushed id hpending hpack hfull outcome hplace =>
    obtain ⟨page, hpage, -⟩ := hpool.occupied id (hpool.pending id hpending)
    have hfrozen : Hosts { p.frozen id with pending := none }.pages tenants :=
      h.protect hpage .executable
    exact hfrozen.placedAnew (hpool.flush hpending) hplace
  | anew hpending outcome hplace => exact h.placedAnew hpool hplace

theorem pendingFrozen (h : Hosts p.pages tenants) (hpool : p.Accounted [])
    {outcome : Except Error Unit × Pool} (hfreeze : p.FreezingPending outcome) :
    Hosts outcome.2.pages tenants := by
  cases hfreeze with
  | idle hpending => exact h
  | granted id hpending =>
    obtain ⟨page, hpage, -⟩ := hpool.occupied id (hpool.pending id hpending)
    exact h.protect hpage .executable
  | refused id hpending => exact h

theorem released (h : Hosts p.pages tenants) {k : Nat} {t : Tenant} (ht : tenants[k]? = some t)
    {q : Pool} (hrelease : p.Releasing t.page q) : Hosts q.pages (tenants.eraseIdx k) := by
  cases hrelease with
  | absent hpage =>
    obtain ⟨page, hpage', -⟩ := h.lives t (List.mem_of_getElem? ht)
    rw [hpage] at hpage'
    contradiction
  | kept page hpage hrefs =>
    refine h.dismiss ht hpage rfl ?_
    intro _ u hlive
    exact ⟨hlive.aligned, hlive.stop_le, hlive.code⟩
  | vacated page hpage hrefs hactive =>
    exact h.dismiss ht hpage rfl (fun hrefs' => absurd hrefs' (Nat.not_lt.2 hrefs))
  | emptied page hpage hrefs hactive =>
    exact h.dismiss ht hpage rfl (fun hrefs' => absurd hrefs' (Nat.not_lt.2 hrefs))

end Hosts

/-- A pool with the code that was placed in it and not yet released. -/
structure House where
  pool : Pool
  tenants : List Tenant

namespace House

inductive Action where
  | place (code : List UInt8) (pack : Bool)
  | freezePending
  -- Of one of the tenants, who is then a tenant no more.
  | release (k : Nat)
  deriving DecidableEq, Repr

def empty (a : Allocator) : House := ⟨Pool.empty a, []⟩

def act (house : House) : Action → House
  | .place code pack =>
    let (result, pool) := house.pool.place code pack
    ⟨pool, moveIn house.tenants code result⟩
  | .freezePending => ⟨house.pool.freezePending.2, house.tenants⟩
  | .release k =>
    match house.tenants[k]? with
    | some t => ⟨house.pool.release t.page, house.tenants.eraseIdx k⟩
    | none => house

def actAll (house : House) (actions : List Action) : House := actions.foldl act house

structure InOrder (house : House) : Prop where
  accounted : house.pool.Accounted []
  hosts : Hosts house.pool.pages house.tenants

theorem InOrder.empty {a : Allocator} (h : 0 < a.pageSize) : (House.empty a).InOrder where
  accounted := .empty h
  hosts := ⟨by simp [House.empty, Pool.empty], by simp [House.empty], .nil⟩

theorem InOrder.act {house : House} (h : house.InOrder) (action : Action) :
    (house.act action).InOrder := by
  cases action with
  | place code pack =>
    have hplace := house.pool.place_outcome code pack
    exact ⟨h.accounted.placed hplace, h.hosts.placed h.accounted hplace⟩
  | freezePending =>
    have hfreeze := house.pool.freezePending_outcome
    exact ⟨h.accounted.pendingFrozen hfreeze, h.hosts.pendingFrozen h.accounted hfreeze⟩
  | release k =>
    unfold House.act
    dsimp only
    split
    next t ht =>
      have hrelease := house.pool.release_outcome t.page
      exact ⟨h.accounted.released hrelease, h.hosts.released ht hrelease⟩
    next => exact h

theorem InOrder.actAll {house : House} (h : house.InOrder) (actions : List Action) :
    (house.actAll actions).InOrder := by
  induction actions generalizing house with
  | nil => exact h
  | cons action rest ih => exact ih (h.act action)

/-- All code that was placed and not released is where it was placed, inside its page and apart from
all other such code. -/
structure Undisturbed (house : House) : Prop where
  inside : ∀ t ∈ house.tenants, ∃ page, house.pool.pages[t.page]? = some page ∧ t.stop ≤ page.length
  aligned : ∀ t ∈ house.tenants, 16 ∣ t.start
  code : ∀ t ∈ house.tenants, house.pool.peek t.placement t.code.length = t.code
  apart : house.tenants.Pairwise Tenant.Apart

theorem InOrder.undisturbed {house : House} (h : house.InOrder) : house.Undisturbed where
  inside := by
    intro t ht
    obtain ⟨page, hpage, hlive⟩ := h.hosts.lives t ht
    exact ⟨page, hpage, Nat.le_trans hlive.stop_le (h.accounted.fits hpage).used_le⟩
  aligned := by
    intro t ht
    obtain ⟨page, hpage, hlive⟩ := h.hosts.lives t ht
    exact hlive.aligned
  code := by
    intro t ht
    obtain ⟨page, hpage, hlive⟩ := h.hosts.lives t ht
    have hpage : house.pool.pages[t.placement.page]? = some page := hpage
    rw [Pool.peek, hpage]
    exact hlive.code
  apart := h.hosts.apart

/-- Whatever is placed, frozen and released in whatever order, and whichever requests the allocator
refuses, code stays in its place until it is released. -/
theorem actAll_undisturbed (a : Allocator) (hpageSize : 0 < a.pageSize) (actions : List Action) :
    ((House.empty a).actAll actions).Undisturbed :=
  ((InOrder.empty hpageSize).actAll actions).undisturbed

/-- Two tenants share a page and a third finds it full; they move out and the page is recycled; a
page is given back since it cannot be frozen. -/
theorem actAll_undisturbed_recycled :
    0 < 32 ∧
    ((House.empty ⟨32, fun n r => n = 24 && r.kind = .freeze, []⟩).actAll
      [.place [1, 2, 3] true, .place [4] true, .place [5] true, .place [6] false, .release 1,
        .release 0, .place [7, 8] false, .place [9] false, .place [10] true]).tenants =
      [⟨⟨1, 0⟩, [5]⟩, ⟨⟨2, 0⟩, [6]⟩, ⟨⟨0, 0⟩, [7, 8]⟩, ⟨⟨1, 16⟩, [10]⟩] ∧
    ((House.empty ⟨32, fun n r => n = 24 && r.kind = .freeze, []⟩).actAll
      [.place [1, 2, 3] true, .place [4] true, .place [5] true, .place [6] false, .release 1,
        .release 0, .place [7, 8] false, .place [9] false, .place [10] true]).Undisturbed :=
  ⟨by decide, by decide, actAll_undisturbed _ (by decide) _⟩

end House

end Reckoner
