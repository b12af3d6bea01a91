import Reckoner.Page.Action
import Reckoner.Proofs.Page.Outcome

/-! Every page of a pool is accounted for. Between two operations a page is either active or free;
inside an operation the page at hand may be neither, and is then held. -/
namespace Reckoner

structure Page.Fits (page : Page) : Prop where
  used_le : page.used ≤ page.length
  memory : page.memory.length = page.length

theorem Page.Fits.write {page : Page} (h : page.Fits) {offset : Nat} {code : List UInt8}
    (hroom : offset + code.length ≤ page.length) : (page.write offset code).Fits := by
  have hmemory := h.memory
  refine ⟨hroom, ?_⟩
  simp only [Page.write, List.length_append, List.length_take, List.length_drop]
  omega

structure Page.Vacant (page : Page) : Prop extends page.Fits where
  refs : page.refs = 0
  used : page.used = 0

structure Page.Occupied (page : Page) (protection : Protection) : Prop extends page.Fits where
  refs : 0 < page.refs
  protection : page.protection = protection

namespace Pool

def protectionOf (p : Pool) (id : Nat) : Protection :=
  if p.pending = some id then .writable else .executable

/-- The pool is in order except for the pages that are held. -/
structure Accounted (held : List Nat) (p : Pool) : Prop where
  partition : (p.active ++ p.free ++ held).Perm (List.range p.pages.length)
  occupied : ∀ id ∈ p.active, ∃ page, p.pages[id]? = some page ∧ page.Occupied (p.protectionOf id)
  vacant : ∀ id ∈ p.free, ∃ page, p.pages[id]? = some page ∧ page.Vacant
  pending : ∀ id, p.pending = some id → id ∈ p.active
  allocations : p.allocations = p.pages.length
  pageSize : 0 < p.allocator.pageSize

namespace Accounted

variable {p : Pool} {held : List Nat} {id : Nat}

theorem empty {a : Allocator} (h : 0 < a.pageSize) : (Pool.empty a).Accounted [] where
  partition := List.Perm.refl _
  occupied := by simp [Pool.empty]
  vacant := by simp [Pool.empty]
  pending := by simp [Pool.empty]
  allocations := rfl
  pageSize := h

theorem record (h : p.Accounted held) (e : Page.Event) : (p.record e).Accounted held :=
  ⟨h.partition, h.occupied, h.vacant, h.pending, h.allocations, h.pageSize⟩

theorem setRefusal (h : p.Accounted held) (kind : RequestKind) (refuse : Bool) :
    (p.setRefusal kind refuse).Accounted held :=
  ⟨h.partition, h.occupied, h.vacant, h.pending, h.allocations, h.pageSize⟩

theorem nodup (h : p.Accounted held) : (p.active ++ p.free ++ held).Nodup :=
  h.partition.nodup_iff.2 List.nodup_range

theorem mem_iff (h : p.Accounted held) : id ∈ p.active ++ p.free ++ held ↔ id < p.pages.length := by
  rw [h.partition.mem_iff, List.mem_range]

theorem not_free_of_active (h : p.Accounted held) (hid : id ∈ p.active) : id ∉ p.free := by
  intro hfree
  have hnodup := List.nodup_append.1 (List.nodup_append.1 h.nodup).1
  exact hnodup.2.2 id hid id hfree rfl

theorem occupied_of_active (h : p.Accounted held) (hid : id ∈ p.active) {page : Page}
    (hpage : p.pages[id]? = some page) : page.Occupied (p.protectionOf id) := by
  obtain ⟨page', hpage', hoccupied⟩ := h.occupied id hid
  obtain rfl : page = page' := Option.some.inj (hpage.symm.trans hpage')
  exact hoccupied

theorem vacant_of_free (h : p.Accounted held) (hid : id ∈ p.free) {page : Page}
    (hpage : p.pages[id]? = some page) : page.Vacant := by
  obtain ⟨page', hpage', hvacant⟩ := h.vacant id hid
  obtain rfl : page = page' := Option.some.inj (hpage.symm.trans hpage')
  exact hvacant

theorem not_mem_of_held (h : p.Accounted [id]) : id ∉ p.active ∧ id ∉ p.free := by
  have hnodup := List.nodup_append.1 h.nodup
  have hid : id ∉ p.active ++ p.free := fun hmem => hnodup.2.2 id hmem id (by simp) rfl
  simpa using hid

theorem pending_ne_of_held (h : p.Accounted [id]) : p.pending ≠ some id :=
  fun hpending => h.not_mem_of_held.1 (h.pending id hpending)

/-- A change of one page keeps the pool in order if it keeps the page as its list wants it. -/
theorem update (h : p.Accounted held) {f : Page → Page}
    (hactive : id ∈ p.active → ∀ page, p.pages[id]? = some page →
      page.Occupied (p.protectionOf id) → (f page).Occupied (p.protectionOf id))
    (hfree : id ∈ p.free → ∀ page, page.Vacant → (f page).Vacant) :
    (p.update id f).Accounted held where
  partition := by
    rw [Pool.update, List.length_modify]
    exact h.partition
  occupied := by
    intro j hj
    obtain ⟨page, hpage, hoccupied⟩ := h.occupied j hj
    by_cases hij : id = j
    · subst hij
      exact ⟨f page, getElem?_update hpage f, hactive hj page hpage hoccupied⟩
    · exact ⟨page, by simp [Pool.update, hij, hpage], hoccupied⟩
  vacant := by
    intro j hj
    obtain ⟨page, hpage, hvacant⟩ := h.vacant j hj
    by_cases hij : id = j
    · subst hij
      exact ⟨f page, getElem?_update hpage f, hfree hj page hvacant⟩
    · exact ⟨page, by simp [Pool.update, hij, hpage], hvacant⟩
  pending := h.pending
  allocations := by
    rw [Pool.update, List.length_modify]
    exact h.allocations
  pageSize := h.pageSize

theorem update_held (h : p.Accounted [id]) (f : Page → Page) : (p.update id f).Accounted [id] :=
  h.update (fun hid => absurd hid h.not_mem_of_held.1) (fun hid => absurd hid h.not_mem_of_held.2)

/-! Pages go from one list to another through the hand. -/

theorem takeFree (h : p.Accounted []) {rest : List Nat} (hfree : p.free.Perm (id :: rest)) :
    { p with free := rest }.Accounted [id] where
  partition := by
    have hmoved : (p.active ++ rest ++ [id]).Perm (p.active ++ p.free ++ []) := by
      rw [List.append_nil, List.append_assoc]
      exact ((List.perm_append_singleton id rest).trans hfree.symm).append_left p.active
    exact hmoved.trans h.partition
  occupied := h.occupied
  vacant j hj := h.vacant j (hfree.mem_iff.2 (List.mem_cons_of_mem id hj))
  pending := h.pending
  allocations := h.allocations
  pageSize := h.pageSize

theorem takeActive (h : p.Accounted []) (hid : id ∈ p.active) :
    { p with
      active := p.active.erase id
      pending := if p.pending = some id then none else p.pending }.Accounted [id] where
  partition := by
    have herase := List.perm_cons_erase hid
    have hmoved : (p.active.erase id ++ p.free ++ [id]).Perm (p.active ++ p.free ++ []) := by
      rw [List.append_nil]
      exact (List.perm_append_singleton id _).trans (herase.symm.append_right p.free)
    exact hmoved.trans h.partition
  occupied := by
    intro j hj
    have hactive : p.active.Nodup := (List.nodup_append.1 (List.nodup_append.1 h.nodup).1).1
    obtain ⟨hne, hj⟩ := hactive.mem_erase_iff.1 hj
    obtain ⟨page, hpage, hoccupied⟩ := h.occupied j hj
    refine ⟨page, hpage, ?_⟩
    have hprotection : Pool.protectionOf { p with
        active := p.active.erase id
        pending := if p.pending = some id then none else p.pending } j = p.protectionOf j := by
      unfold protectionOf
      by_cases hpending : p.pending = some id
      · simp [hpending, Ne.symm hne]
      · simp [hpending]
    rw [hprotection]
    exact hoccupied
  vacant := h.vacant
  pending := by
    intro j hj
    dsimp only at hj ⊢
    split at hj
    next => contradiction
    next hne =>
      have hji : j ≠ id := by
        intro heq
        exact hne (heq ▸ hj)
      exact (List.mem_erase_of_ne hji).2 (h.pending j hj)
  allocations := h.allocations
  pageSize := h.pageSize

theorem openPage (h : p.Accounted []) (length : Nat) :
    (p.opened length).Accounted [p.pages.length] where
  partition := by
    rw [opened_pages, List.length_append, List.length_singleton, List.range_succ]
    have hpartition := h.partition
    rw [List.append_nil] at hpartition
    exact hpartition.append_right _
  occupied := by
    intro j hj
    obtain ⟨page, hpage, hoccupied⟩ := h.occupied j hj
    have hlt : j < p.pages.length := (List.getElem?_eq_some_iff.1 hpage).1
    exact ⟨page, by rw [opened_pages, List.getElem?_append_left hlt, hpage], hoccupied⟩
  vacant := by
    intro j hj
    obtain ⟨page, hpage, hvacant⟩ := h.vacant j hj
    have hlt : j < p.pages.length := (List.getElem?_eq_some_iff.1 hpage).1
    exact ⟨page, by rw [opened_pages, List.getElem?_append_left hlt, hpage], hvacant⟩
  pending := h.pending
  allocations := by
    rw [opened_allocations, opened_pages, List.length_append, List.length_singleton, h.allocations]
  pageSize := h.pageSize

theorem putFree (h : p.Accounted [id]) {page : Page} (hpage : p.pages[id]? = some page)
    (hvacant : page.Vacant) : { p with free := p.free ++ [id] }.Accounted [] where
  partition := by
    rw [List.append_nil, ← List.append_assoc]
    exact h.partition
  occupied := h.occupied
  vacant := by
    intro j hj
    rcases List.mem_append.1 hj with hj | hj
    · exact h.vacant j hj
    · rw [List.mem_singleton] at hj
      subst hj
      exact ⟨page, hpage, hvacant⟩
  pending := h.pending
  allocations := h.allocations
  pageSize := h.pageSize

theorem activate_partition (h : p.Accounted [id]) :
    ((p.activate id).active ++ p.free ++ []).Perm (List.range p.pages.length) := by
  have hinsert : (p.activate id).active = id :: p.active :=
    List.insert_of_not_mem h.not_mem_of_held.1
  rw [hinsert, List.append_nil, List.cons_append]
  exact (List.perm_append_singleton id _).symm.trans h.partition

theorem putActive (h : p.Accounted [id]) {page : Page} (hpage : p.pages[id]? = some page)
    (hoccupied : page.Occupied .executable) : (p.activate id).Accounted [] where
  partition := h.activate_partition
  occupied := by
    intro j hj
    rcases List.mem_insert_iff.1 hj with rfl | hj
    · have hprotection : (p.activate j).protectionOf j = .executable :=
        if_neg h.pending_ne_of_held
      rw [hprotection]
      exact ⟨page, hpage, hoccupied⟩
    · exact h.occupied j hj
  vacant := h.vacant
  pending j hj := List.mem_insert_of_mem (h.pending j hj)
  allocations := h.allocations
  pageSize := h.pageSize

theorem putPending (h : p.Accounted [id]) (hpending : p.pending = none) {page : Page}
    (hpage : p.pages[id]? = some page) (hoccupied : page.Occupied .writable) :
    ({ p with pending := some id }.activate id).Accounted [] where
  partition := h.activate_partition
  occupied := by
    intro j hj
    rcases List.mem_insert_iff.1 hj with rfl | hj
    · have hprotection : ({ p with pending := some j }.activate j).protectionOf j = .writable :=
        if_pos rfl
      rw [hprotection]
      exact ⟨page, hpage, hoccupied⟩
    · have hne : id ≠ j := fun heq => h.not_mem_of_held.1 (heq ▸ hj)
      have hprotection :
          ({ p with pending := some id }.activate id).protectionOf j = p.protectionOf j := by
        simp [protectionOf, activate, hne, hpending]
      rw [hprotection]
      exact h.occupied j hj
  vacant := h.vacant
  pending := by
    intro j hj
    cases hj
    exact List.mem_insert_self
  allocations := h.allocations
  pageSize := h.pageSize

/-! The operations. -/

theorem acquired (h : p.Accounted []) {need : Nat} {q : Pool}
    (hacquire : p.Acquisition need (.ok id, q)) :
    q.Accounted [id] ∧ q.pending = p.pending ∧
      ∃ page, q.pages[id]? = some page ∧ page.Vacant ∧ page.protection = .writable ∧
        need ≤ page.length := by
  have hneed : need ≤ p.lengthFor need :=
    Nat.le_trans (Nat.le_max_left need 1) (le_alignUp h.pageSize _)
  cases hacquire with
  | taken id rest hfree hlength hwritable =>
    obtain ⟨page, hpage, hvacant⟩ := h.vacant id (hfree.mem_iff.2 List.mem_cons_self)
    rw [lengthOf_eq hpage] at hlength
    exact ⟨(h.takeFree hfree).record _, rfl, page, hpage, hvacant, hwritable page hpage,
      Nat.le_trans hneed hlength⟩
  | renewed id rest hfree hlength page hpage hexecutable =>
    have hvacant := h.vacant_of_free (hfree.mem_iff.2 List.mem_cons_self) hpage
    rw [lengthOf_eq hpage] at hlength
    have hheld := (h.takeFree hfree).update_held fun page => { page with protection := .writable }
    refine ⟨(hheld.record _).record _, rfl, { page with protection := .writable }, ?_, ?_, rfl,
      Nat.le_trans hneed hlength⟩
    · rw [taken_pages, renewed_pages, List.getElem?_modify_eq, hpage]
      rfl
    · exact ⟨⟨hvacant.used_le, hvacant.memory⟩, hvacant.refs, hvacant.used⟩
  | opened hshort =>
    refine ⟨h.openPage _, rfl, Page.fresh (p.lengthFor need), ?_, ?_, rfl, hneed⟩
    · rw [opened_pages, List.getElem?_append_right (Nat.le_refl _), Nat.sub_self]
      rfl
    · exact ⟨⟨Nat.zero_le _, List.length_replicate⟩, rfl, rfl⟩

theorem notAcquired (h : p.Accounted []) {need : Nat} {e : Error} {q : Pool}
    (hacquire : p.Acquisition need (.error e, q)) : q.Accounted [] := by
  cases hacquire with
  | notRenewed => exact h.record _
  | notOpened => exact h.record _

theorem giveBack (h : p.Accounted [id]) {page : Page} (hpage : p.pages[id]? = some page)
    (hfits : page.Fits) (hrefs : page.refs = 1) : (p.giveBack id).Accounted [] := by
  have hpages := getElem?_update hpage fun page => { page with refs := page.refs - 1, used := 0 }
  refine (h.update_held _).putFree hpages ⟨⟨Nat.zero_le _, hfits.memory⟩, ?_, rfl⟩
  simp [hrefs]

theorem placedAnew (h : p.Accounted []) {code : List UInt8} {pack : Bool}
    (hpending : pack = true → p.pending = none) {outcome : Except Error Placement × Pool}
    (hplace : p.PlacingAnew code pack outcome) : outcome.2.Accounted [] := by
  cases hplace with
  | noPage e q hacquire => exact h.notAcquired hacquire
  | inProgress id q hacquire hpack =>
    obtain ⟨hheld, hsame, page, hpage, hvacant, hwritable, hroom⟩ := h.acquired hacquire
    have hwritten : (q.write id 0 code).pages[id]? = some (page.write 0 code) :=
      getElem?_update hpage _
    have hoccupied : (page.write 0 code).Occupied .writable :=
      ⟨hvacant.write (by omega), Nat.succ_pos _, hwritable⟩
    exact ((hheld.update_held _).record _).putPending (hsame.trans (hpending hpack)) hwritten
      hoccupied
  | executable id q hacquire hpack =>
    obtain ⟨hheld, -, page, hpage, hvacant, -, hroom⟩ := h.acquired hacquire
    have hwritten : (q.write id 0 code).pages[id]? = some (page.write 0 code) :=
      getElem?_update hpage _
    have hfrozen : ((q.write id 0 code).frozen id).pages[id]? =
        some { page.write 0 code with protection := .executable } :=
      getElem?_update hwritten _
    have hfits : (page.write 0 code).Fits := hvacant.write (by omega)
    have hoccupied : { page.write 0 code with protection := .executable }.Occupied .executable :=
      ⟨⟨hfits.used_le, hfits.memory⟩, Nat.succ_pos _, rfl⟩
    have hheld : ((q.write id 0 code).frozen id).Accounted [id] :=
      ((((hheld.update_held _).record _).record _).update_held _).record _
    exact hheld.putActive hfrozen hoccupied
  | givenBack id q hacquire hpack =>
    obtain ⟨hheld, -, page, hpage, hvacant, -, hroom⟩ := h.acquired hacquire
    have hwritten : (q.write id 0 code).pages[id]? = some (page.write 0 code) :=
      getElem?_update hpage _
    have hrefs : (page.write 0 code).refs = 1 := by rw [Page.write, hvacant.refs]
    have hheld : (q.write id 0 code).Accounted [id] := (hheld.update_held _).record _
    exact (hheld.record _).giveBack hwritten (hvacant.write (by omega)) hrefs

theorem flush (h : p.Accounted held) (hpending : p.pending = some id) :
    { p.frozen id with pending := none }.Accounted held where
  partition := by
    rw [frozen_pages, List.length_modify]
    exact h.partition
  occupied := by
    intro j hj
    obtain ⟨page, hpage, hoccupied⟩ := h.occupied j hj
    by_cases hij : id = j
    · subst hij
      refine ⟨{ page with protection := .executable }, ?_,
        ⟨⟨hoccupied.used_le, hoccupied.memory⟩, hoccupied.refs, rfl⟩⟩
      exact getElem?_update hpage _
    · refine ⟨page, ?_, ?_⟩
      · rw [frozen_pages, List.getElem?_modify_ne _ _ hij]
        exact hpage
      · rw [protectionOf, hpending, if_neg (by simpa using hij)] at hoccupied
        exact hoccupied
  vacant := by
    intro j hj
    obtain ⟨page, hpage, hvacant⟩ := h.vacant j hj
    have hij : id ≠ j := by
      rintro rfl
      exact h.not_free_of_active (h.pending id hpending) hj
    refine ⟨page, ?_, hvacant⟩
    rw [frozen_pages, List.getElem?_modify_ne _ _ hij]
    exact hpage
  pending := by simp
  allocations := by
    rw [frozen_pages, List.length_modify]
    exact h.allocations
  pageSize := h.pageSize

theorem placed (h : p.Accounted []) {code : List UInt8} {pack : Bool}
    {outcome : Except Error Placement × Pool} (hplace : p.Placing code pack outcome) :
    outcome.2.Accounted [] := by
  cases hplace with
  | joined id hpending hpack hroom =>
    refine ((h.record _).update ?_ ?_).record _
    · intro _ page hpage hoccupied
      rw [record_pages] at hpage
      rw [lengthOf_eq hpage] at hroom
      exact ⟨hoccupied.write hroom, Nat.succ_pos _, hoccupied.protection⟩
    · intro hfree
      exact absurd hfree (h.not_free_of_active (h.pending id hpending))
  | notFlushed id hpending hpack hfull => exact h.record _
  | flushed id hpending hpack hfull outcome hplace =>
    exact (h.flush hpending).placedAnew (fun _ => rfl) hplace
  | anew hpending outcome hplace => exact h.placedAnew hpending hplace

theorem pendingFrozen (h : p.Accounted []) {outcome : Except Error Unit × Pool}
    (hfreeze : p.FreezingPending outcome) : outcome.2.Accounted [] := by
  cases hfreeze with
  | idle hpending => exact h
  | granted id hpending => exact h.flush hpending
  | refused id hpending => exact h.record _

theorem released (h : p.Accounted []) {q : Pool} (hrelease : p.Releasing id q) :
    q.Accounted [] := by
  cases hrelease with
  | absent hpage => exact h
  | kept page hpage hrefs =>
    refine h.update ?_ ?_
    · intro _ page' hpage' hoccupied
      obtain rfl : page = page' := Option.some.inj (hpage.symm.trans hpage')
      exact ⟨⟨hoccupied.used_le, hoccupied.memory⟩, Nat.sub_pos_of_lt hrefs, hoccupied.protection⟩
    · intro _ page hvacant
      exact ⟨⟨hvacant.used_le, hvacant.memory⟩, by simp [hvacant.refs], hvacant.used⟩
  | vacated page hpage hrefs hactive =>
    have hoccupied := h.occupied_of_active hactive hpage
    have hvacant : { page with refs := page.refs - 1, used := 0 }.Vacant :=
      ⟨⟨Nat.zero_le _, hoccupied.memory⟩, Nat.sub_eq_zero_of_le hrefs, rfl⟩
    have hheld := (h.takeActive hactive).update_held
      fun page => { page with refs := page.refs - 1, used := 0 }
    exact (hheld.putFree (getElem?_update hpage _) hvacant).record _
  | emptied page hpage hrefs hactive =>
    have hpending : p.pending ≠ some id := fun hpending => hactive (h.pending id hpending)
    have hupdate := h.update (fun hid => absurd hid hactive) fun _ page hvacant =>
      (⟨⟨Nat.zero_le _, hvacant.memory⟩, by simp [hvacant.refs], rfl⟩ :
        { page with refs := page.refs - 1, used := 0 }.Vacant)
    unfold emptied
    rw [if_neg hpending]
    exact hupdate

theorem act (h : p.Accounted []) (action : Action) : (p.act action).Accounted [] := by
  cases action with
  | place code pack => exact h.placed (p.place_outcome code pack)
  | freezePending => exact h.pendingFrozen p.freezePending_outcome
  | release id => exact h.released (p.release_outcome id)

theorem actAll (h : p.Accounted []) (actions : List Action) : (p.actAll actions).Accounted [] := by
  induction actions generalizing p with
  | nil => exact h
  | cons action rest ih => exact ih (h.act action)

theorem active_or_free (h : p.Accounted []) {page : Page} (hpage : p.pages[id]? = some page) :
    (id ∈ p.active ∧ page.Occupied (p.protectionOf id)) ∨ (id ∈ p.free ∧ page.Vacant) := by
  have hmem : id ∈ p.active ++ p.free ++ [] := h.mem_iff.2 (List.getElem?_eq_some_iff.1 hpage).1
  rw [List.append_nil, List.mem_append] at hmem
  rcases hmem with hactive | hfree
  · exact .inl ⟨hactive, h.occupied_of_active hactive hpage⟩
  · exact .inr ⟨hfree, h.vacant_of_free hfree hpage⟩

theorem fits (h : p.Accounted []) {page : Page} (hpage : p.pages[id]? = some page) : page.Fits := by
  rcases h.active_or_free hpage with ⟨-, hoccupied⟩ | ⟨-, hvacant⟩
  · exact hoccupied.toFits
  · exact hvacant.toFits

end Accounted

structure Consistent (p : Pool) : Prop where
  active_nodup : p.active.Nodup
  free_nodup : p.free.Nodup
  disjoint : ∀ id ∈ p.active, id ∉ p.free
  mem_iff : ∀ id, id ∈ p.active ∨ id ∈ p.free ↔ id < p.pages.length
  active_iff : ∀ (id : Nat) (page : Page), p.pages[id]? = some page → (id ∈ p.active ↔ 0 < page.refs)
  pending : ∀ id, p.pending = some id →
    id ∈ p.active ∧ ∃ page, p.pages[id]? = some page ∧ page.protection = .writable
  executable : ∀ id ∈ p.active, p.pending ≠ some id →
    ∃ page, p.pages[id]? = some page ∧ page.protection = .executable
  used_le : ∀ (id : Nat) (page : Page), p.pages[id]? = some page → page.used ≤ page.length
  used_eq_zero : ∀ (id : Nat) (page : Page), p.pages[id]? = some page → id ∈ p.free → page.used = 0
  allocations : p.allocations = p.pages.length

theorem Accounted.consistent {p : Pool} (h : p.Accounted []) : p.Consistent where
  active_nodup := (List.nodup_append.1 (List.nodup_append.1 h.nodup).1).1
  free_nodup := (List.nodup_append.1 (List.nodup_append.1 h.nodup).1).2.1
  disjoint id hactive := h.not_free_of_active hactive
  mem_iff id := by
    have hiff : id ∈ p.active ++ p.free ++ [] ↔ id < p.pages.length := h.mem_iff
    rw [← hiff, List.append_nil, List.mem_append]
  active_iff := by
    intro id page hpage
    rcases h.active_or_free hpage with ⟨hactive, hoccupied⟩ | ⟨hfree, hvacant⟩
    · exact iff_of_true hactive hoccupied.refs
    · refine iff_of_false (fun hactive => h.not_free_of_active hactive hfree) ?_
      rw [hvacant.refs]
      exact Nat.lt_irrefl 0
  pending := by
    intro id hpending
    obtain ⟨page, hpage, hoccupied⟩ := h.occupied id (h.pending id hpending)
    rw [protectionOf, if_pos hpending] at hoccupied
    exact ⟨h.pending id hpending, page, hpage, hoccupied.protection⟩
  executable := by
    intro id hactive hpending
    obtain ⟨page, hpage, hoccupied⟩ := h.occupied id hactive
    rw [protectionOf, if_neg hpending] at hoccupied
    exact ⟨page, hpage, hoccupied.protection⟩
  used_le _ _ hpage := (h.fits hpage).used_le
  used_eq_zero := by
    intro id page hpage hfree
    exact (h.vacant_of_free hfree hpage).used
  allocations := h.allocations

/-- Whatever is placed, frozen and released in whatever order, and whichever requests the allocator
refuses, the pool stays consistent. -/
theorem actAll_consistent (a : Allocator) (hpageSize : 0 < a.pageSize) (actions : List Action) :
    ((Pool.empty a).actAll actions).Consistent :=
  ((Accounted.empty hpageSize).actAll actions).consistent

/-- A page in progress is full and frozen, another cannot be frozen, a page is released once too
often, and a page that never was is released too. -/
theorem actAll_consistent_recycled :
    0 < 16 ∧
    ((Pool.empty ⟨16, fun n r => n = 11 && r.kind = .freeze, []⟩).actAll
      [.place [1, 2, 3] true, .place [4] true, .place [5] false, .place [6] false, .release 0,
        .release 0, .release 9, .place [7, 8] true]).stats = ⟨3, 0, true, 3⟩ ∧
    ((Pool.empty ⟨16, fun n r => n = 11 && r.kind = .freeze, []⟩).actAll
      [.place [1, 2, 3] true, .place [4] true, .place [5] false, .place [6] false, .release 0,
        .release 0, .release 9, .place [7, 8] true]).Consistent :=
  ⟨by decide, by decide, actAll_consistent _ (by decide) _⟩

end Pool

end Reckoner
