import Reckoner.Proofs.Page.Accounting

/-! What a pool records is what it does. Each event has its rule: which regions it finds, and which
it leaves. An action follows the rules from the first event to the last, and only then may users
of a page go. -/
namespace Reckoner

structure Region where
  length : Nat
  protection : Protection
  users : Nat
  deriving DecidableEq, Repr

def Page.region (page : Page) : Region := ⟨page.length, page.protection, page.refs⟩

def Pool.regions (p : Pool) : List Region := p.pages.map Page.region

namespace Page.Event

def request? : Event → Option Request
  | granted r | refused r => some r
  | freed _ _ | opened _ _ | reused _ _ | packed _ _ _ | wrote _ _ _ | frozen _ | vacated _ => none

def isRemark : Event → Bool
  | opened _ _ | reused _ _ | packed _ _ _ | frozen _ | vacated _ => true
  | granted _ | refused _ | freed _ _ | wrote _ _ _ => false

theorem request?_of_isRemark {e : Event} (h : e.isRemark = true) : e.request? = none := by
  cases e with
  | granted request => contradiction
  | refused request => contradiction
  | _ => rfl

end Page.Event

/-- The rules: a region is frozen and written to while it is writable, and made writable while it is
executable and has no users. That holds of the requests, whether they are granted or not. -/
inductive Region.Step (regions : List Region) : Page.Event → List Region → Prop
  | allocated (length : Nat) :
    Step regions (.granted (.allocate length)) (regions ++ [⟨length, .writable, 0⟩])
  | frozen (id length users : Nat) (h : regions[id]? = some ⟨length, .writable, users⟩) :
    Step regions (.granted (.freeze id length)) (regions.set id ⟨length, .executable, users⟩)
  | renewed (id length : Nat) (h : regions[id]? = some ⟨length, .executable, 0⟩) :
    Step regions (.granted (.renew id length)) (regions.set id ⟨length, .writable, 0⟩)
  | written (id offset count length users : Nat)
    (h : regions[id]? = some ⟨length, .writable, users⟩) :
    Step regions (.wrote id offset count) (regions.set id ⟨length, .writable, users + 1⟩)
  | notAllocated (length : Nat) : Step regions (.refused (.allocate length)) regions
  | notFrozen (id length users : Nat) (h : regions[id]? = some ⟨length, .writable, users⟩) :
    Step regions (.refused (.freeze id length)) regions
  | notRenewed (id length : Nat) (h : regions[id]? = some ⟨length, .executable, 0⟩) :
    Step regions (.refused (.renew id length)) regions
  | remark (e : Page.Event) (h : e.isRemark = true) : Step regions e regions

inductive Region.Steps : List Region → List Page.Event → List Region → Prop
  | nil (regions : List Region) : Steps regions [] regions
  | cons {regions between after : List Region} {e : Page.Event} {rest : List Page.Event}
    (hstep : Step regions e between) (hrest : Steps between rest after) :
    Steps regions (e :: rest) after

namespace Region

variable {regions between after : List Region} {events rest : List Page.Event} {e : Page.Event}

theorem Steps.append (h : Steps regions events between) (hrest : Steps between rest after) :
    Steps regions (events ++ rest) after := by
  induction h with
  | nil regions => exact hrest
  | cons hstep _ ih => exact .cons hstep (ih hrest)

theorem Steps.single (h : Step regions e after) : Steps regions [e] after := .cons h (.nil after)

theorem Steps.step_of_append {earlier later : List Page.Event}
    (h : Steps regions (earlier ++ e :: later) after) :
    ∃ found left, Steps regions earlier found ∧ Step found e left := by
  induction earlier generalizing regions with
  | nil =>
    cases h with
    | cons hstep hrest => exact ⟨regions, _, .nil regions, hstep⟩
  | cons first earlier ih =>
    cases h with
    | cons hstep hrest =>
      obtain ⟨found, left, hfound, hleft⟩ := ih hrest
      exact ⟨found, left, .cons hstep hfound, hleft⟩

/-! What the rules say about a request, whatever the answer, and about writing. -/

theorem Step.of_freeze {id length : Nat} (h : Step regions e after)
    (he : e.request? = some (.freeze id length)) :
    ∃ users, regions[id]? = some ⟨length, .writable, users⟩ := by
  cases h with
  | frozen id length users h =>
    cases he
    exact ⟨users, h⟩
  | notFrozen id length users h =>
    cases he
    exact ⟨users, h⟩
  | remark e hremark => simp [Page.Event.request?_of_isRemark hremark] at he
  | _ => simp [Page.Event.request?] at he

theorem Step.of_renew {id length : Nat} (h : Step regions e after)
    (he : e.request? = some (.renew id length)) :
    regions[id]? = some ⟨length, .executable, 0⟩ := by
  cases h with
  | renewed id length h =>
    cases he
    exact h
  | notRenewed id length h =>
    cases he
    exact h
  | remark e hremark => simp [Page.Event.request?_of_isRemark hremark] at he
  | _ => simp [Page.Event.request?] at he

theorem Step.of_wrote {id offset count : Nat} (h : Step regions (.wrote id offset count) after) :
    ∃ length users, regions[id]? = some ⟨length, .writable, users⟩ := by
  cases h with
  | written _ _ _ length users h => exact ⟨length, users, h⟩
  | remark _ hremark => contradiction

def usersOf (regions : List Region) (id : Nat) : Nat :=
  match regions[id]? with
  | some r => r.users
  | none => 0

theorem usersOf_eq {id : Nat} {r : Region} (h : regions[id]? = some r) :
    usersOf regions id = r.users := by
  rw [usersOf, h]

theorem usersOf_set_self {id : Nat} {r : Region} (h : regions[id]? = some r) (r' : Region) :
    usersOf (regions.set id r') id = r'.users := by
  have hlt : id < regions.length := (List.getElem?_eq_some_iff.1 h).1
  simp [usersOf, hlt]

theorem usersOf_le_set {id : Nat} {r r' : Region} (h : regions[id]? = some r)
    (hle : r.users ≤ r'.users) (j : Nat) : usersOf regions j ≤ usersOf (regions.set id r') j := by
  by_cases hij : id = j
  · subst hij
    rwa [usersOf_eq h, usersOf_set_self h]
  · simp [usersOf, hij]

theorem Step.usersOf_le (h : Step regions e after) (id : Nat) :
    usersOf regions id ≤ usersOf after id := by
  cases h with
  | allocated length =>
    by_cases hlt : id < regions.length
    · simp [usersOf, List.getElem?_append_left hlt]
    · have hnone : regions[id]? = none := List.getElem?_eq_none (Nat.not_lt.1 hlt)
      simp [usersOf, hnone]
  | frozen id' length users h => exact usersOf_le_set h (Nat.le_refl users) id
  | renewed id' length h => exact usersOf_le_set h (Nat.le_refl 0) id
  | written id' offset count length users h => exact usersOf_le_set h (Nat.le_succ users) id
  | notAllocated length => exact Nat.le_refl _
  | notFrozen id' length users h => exact Nat.le_refl _
  | notRenewed id' length h => exact Nat.le_refl _
  | remark e hremark => exact Nat.le_refl _

theorem Step.usersOf_pos {id offset count : Nat} (h : Step regions (.wrote id offset count) after) :
    0 < usersOf after id := by
  cases h with
  | written _ _ _ length users h =>
    rw [usersOf_set_self h]
    exact Nat.succ_pos users
  | remark _ hremark => contradiction

theorem Steps.vacant (h : Steps regions events after) {id : Nat} (hid : usersOf after id = 0) :
    usersOf regions id = 0 ∧ ∀ offset count, .wrote id offset count ∉ events := by
  induction h with
  | nil regions => exact ⟨hid, by simp⟩
  | cons hstep hrest ih =>
    obtain ⟨hbetween, hwrites⟩ := ih hid
    refine ⟨Nat.eq_zero_of_le_zero (hbetween ▸ hstep.usersOf_le id), ?_⟩
    intro offset count hmem
    rcases List.mem_cons.1 hmem with rfl | hmem
    · exact Nat.ne_of_gt hstep.usersOf_pos hbetween
    · exact hwrites offset count hmem

structure Relet (regions after : List Region) : Prop where
  length_eq : after.length = regions.length
  same : ∀ (id : Nat) (r : Region), after[id]? = some r →
    ∃ before, regions[id]? = some before ∧ before.length = r.length ∧
      before.protection = r.protection

theorem Relet.refl (regions : List Region) : Relet regions regions :=
  ⟨rfl, fun _ r h => ⟨r, h, rfl, rfl⟩⟩

theorem Relet.trans (h : Relet regions between) (hrest : Relet between after) :
    Relet regions after where
  length_eq := hrest.length_eq.trans h.length_eq
  same := by
    intro id r hr
    obtain ⟨r', hr', hlength', hprotection'⟩ := hrest.same id r hr
    obtain ⟨before, hbefore, hlength, hprotection⟩ := h.same id r' hr'
    exact ⟨before, hbefore, hlength.trans hlength', hprotection.trans hprotection'⟩

end Region

namespace Pool

open Region

variable {p q r : Pool} {events rest : List Page.Event} {id : Nat} {page : Page}

theorem getElem?_regions (h : p.pages[id]? = some page) : p.regions[id]? = some page.region := by
  rw [regions, List.getElem?_map, h]
  rfl

theorem regions_congr (h : q.pages = p.pages) : q.regions = p.regions := by
  rw [regions, regions, h]

theorem regions_update (h : p.pages[id]? = some page) (f : Page → Page) :
    (p.update id f).regions = p.regions.set id (f page).region := by
  have hlt : id < p.regions.length := (List.getElem?_eq_some_iff.1 (getElem?_regions h)).1
  apply List.ext_getElem?
  intro j
  by_cases hij : id = j
  · subst hij
    rw [getElem?_regions (getElem?_update h f), List.getElem?_set_self hlt]
  · rw [List.getElem?_set_ne hij]
    simp [regions, update, hij]

theorem relet_update {f : Page → Page}
    (h : ∀ page, (f page).length = page.length ∧ (f page).protection = page.protection) :
    Relet p.regions (p.update id f).regions where
  length_eq := by simp [regions, update]
  same := by
    intro j region hregion
    simp only [regions, update, List.getElem?_map, List.getElem?_modify] at hregion ⊢
    cases hpage : p.pages[j]? with
    | none => simp [hpage] at hregion
    | some page =>
      rw [hpage] at hregion
      refine ⟨page.region, rfl, ?_⟩
      by_cases hij : id = j
      · have hr : (f page).region = region := by simpa [hij] using hregion
        rw [← hr]
        exact ⟨(h page).1.symm, (h page).2.symm⟩
      · have hr : page.region = region := by simpa [hij] using hregion
        rw [← hr]
        exact ⟨rfl, rfl⟩

/-- From one pool to another by events that follow the rules, and bytes change only where code is
written. -/
structure Records (p : Pool) (events : List Page.Event) (q : Pool) : Prop where
  history : q.allocator.history = p.allocator.history ++ events
  regions : Steps p.regions events q.regions
  memory : ∀ (id : Nat) (page : Page), p.pages[id]? = some page →
    ∃ after, q.pages[id]? = some after ∧
      (after.memory = page.memory ∨ ∃ offset count, .wrote id offset count ∈ events)

namespace Records

theorem refl (p : Pool) : p.Records [] p where
  history := (List.append_nil _).symm
  regions := .nil _
  memory _ page h := ⟨page, h, .inl rfl⟩

theorem trans (h : p.Records events q) (hrest : q.Records rest r) :
    p.Records (events ++ rest) r where
  history := by rw [hrest.history, h.history, List.append_assoc]
  regions := h.regions.append hrest.regions
  memory := by
    intro id page hpage
    obtain ⟨between, hbetween, hsame⟩ := h.memory id page hpage
    obtain ⟨after, hafter, hsame'⟩ := hrest.memory id between hbetween
    refine ⟨after, hafter, ?_⟩
    rcases hsame with hsame | ⟨offset, count, hmem⟩
    · rcases hsame' with hsame' | ⟨offset, count, hmem⟩
      · exact .inl (hsame'.trans hsame)
      · exact .inr ⟨offset, count, List.mem_append_right _ hmem⟩
    · exact .inr ⟨offset, count, List.mem_append_left _ hmem⟩

theorem relist (h : p.Records events q) (hhistory : r.allocator.history = q.allocator.history)
    (hpages : r.pages = q.pages) : p.Records events r where
  history := hhistory.trans h.history
  regions := by
    rw [regions_congr hpages]
    exact h.regions
  memory := by
    rw [hpages]
    exact h.memory

theorem remark (p : Pool) {e : Page.Event} (he : e.isRemark = true) : p.Records [e] (p.record e) where
  history := rfl
  regions := .single (.remark e he)
  memory _ page h := ⟨page, h, .inl rfl⟩

theorem refused (p : Pool) {request : Request} (h : Step p.regions (.refused request) p.regions) :
    p.Records [.refused request] (p.refused request) where
  history := rfl
  regions := .single h
  memory _ page hpage := ⟨page, hpage, .inl rfl⟩

theorem change {e : Page.Event} {f : Page → Page} (hpage : p.pages[id]? = some page)
    (hstep : Step p.regions e (p.regions.set id (f page).region))
    (hmemory : (f page).memory = page.memory ∨ ∃ offset count, e = .wrote id offset count) :
    p.Records [e] ((p.record e).update id f) where
  history := rfl
  regions := by
    have hregions : ((p.record e).update id f).regions = p.regions.set id (f page).region :=
      regions_update (p := p.record e) hpage f
    rw [hregions]
    exact .single hstep
  memory := by
    intro j page' hpage'
    by_cases hij : id = j
    · subst hij
      obtain rfl : page = page' := Option.some.inj (hpage.symm.trans hpage')
      refine ⟨f page, getElem?_update hpage f, ?_⟩
      rcases hmemory with hmemory | ⟨offset, count, rfl⟩
      · exact .inl hmemory
      · exact .inr ⟨offset, count, List.mem_singleton_self _⟩
    · exact ⟨page', by simpa [Pool.update, hij] using hpage', .inl rfl⟩

theorem frozen (hpage : p.pages[id]? = some page) (hwritable : page.protection = .writable) :
    p.Records [.granted (.freeze id (p.lengthOf id)), .frozen id] (p.frozen id) := by
  have hregion : p.regions[id]? = some ⟨p.lengthOf id, .writable, page.refs⟩ := by
    rw [getElem?_regions hpage, Page.region, hwritable, lengthOf_eq hpage]
  have hstep := Step.frozen id (p.lengthOf id) page.refs hregion
  have hchange : p.Records [.granted (.freeze id (p.lengthOf id))]
      ((p.record (.granted (.freeze id (p.lengthOf id)))).update id
        fun page => { page with protection := .executable }) := by
    refine change hpage ?_ (.inl rfl)
    rwa [lengthOf_eq hpage] at hstep ⊢
  exact hchange.trans (remark _ rfl)

theorem notFrozen (hpage : p.pages[id]? = some page) (hwritable : page.protection = .writable) :
    p.Records [.refused (.freeze id (p.lengthOf id))] (p.refused (.freeze id (p.lengthOf id))) := by
  refine refused p (.notFrozen id _ page.refs ?_)
  rw [getElem?_regions hpage, Page.region, hwritable, lengthOf_eq hpage]

theorem renewed (hpage : p.pages[id]? = some page) (hexecutable : page.protection = .executable)
    (hrefs : page.refs = 0) :
    p.Records [.granted (.renew id (p.lengthOf id))] (p.renewed id) := by
  have hregion : p.regions[id]? = some ⟨page.length, .executable, 0⟩ := by
    rw [getElem?_regions hpage, Page.region, hexecutable, hrefs]
  have hstep := Step.renewed id page.length hregion
  refine change hpage ?_ (.inl rfl)
  rwa [lengthOf_eq hpage, Page.region, hrefs]

theorem opened (p : Pool) (length : Nat) :
    p.Records [.granted (.allocate length), .opened p.pages.length length] (p.opened length) := by
  refine trans (q := { p.record (.granted (.allocate length)) with
    pages := p.pages ++ [Page.fresh length]
    allocations := p.allocations + 1 }) ⟨rfl, .single ?_, ?_⟩ (remark _ rfl)
  · have hregions : (p.pages ++ [Page.fresh length]).map Page.region =
        p.regions ++ [⟨length, .writable, 0⟩] := by
      rw [List.map_append]
      rfl
    change Step p.regions _ ((p.pages ++ [Page.fresh length]).map Page.region)
    rw [hregions]
    exact .allocated length
  · intro j page hpage
    have hlt : j < p.pages.length := (List.getElem?_eq_some_iff.1 hpage).1
    exact ⟨page, by rw [List.getElem?_append_left hlt, hpage], .inl rfl⟩

theorem taken (p : Pool) (id : Nat) (rest : List Nat) :
    p.Records [.reused id (p.lengthOf id)] (p.taken id rest) where
  history := rfl
  regions := .single (.remark _ rfl)
  memory _ page h := ⟨page, h, .inl rfl⟩

theorem write (hpage : p.pages[id]? = some page) (hwritable : page.protection = .writable)
    (offset : Nat) (code : List UInt8) :
    p.Records [.wrote id offset code.length] (p.write id offset code) := by
  have hregion : p.regions[id]? = some ⟨page.length, .writable, page.refs⟩ := by
    rw [getElem?_regions hpage, Page.region, hwritable]
  have hstep := Step.written id offset code.length page.length page.refs hregion
  refine change hpage ?_ (.inr ⟨offset, code.length, rfl⟩)
  rwa [Page.region, Page.write, hwritable]

end Records

theorem Acquisition.records {need : Nat} {result : Except Error Nat}
    (h : p.Acquisition need (result, q)) (hpool : p.Accounted []) :
    ∃ events, p.Records events q := by
  have hvacant (id : Nat) (rest : List Nat) (hfree : p.free.Perm (id :: rest)) (page : Page)
      (hpage : p.pages[id]? = some page) : page.refs = 0 :=
    (hpool.vacant_of_free (hfree.mem_iff.2 List.mem_cons_self) hpage).refs
  cases h with
  | taken id rest hfree hlength hwritable => exact ⟨_, Records.taken p id rest⟩
  | renewed id rest hfree hlength page hpage hexecutable =>
    have hrenewed := Records.renewed hpage hexecutable (hvacant id rest hfree page hpage)
    exact ⟨_, hrenewed.trans (Records.taken _ id rest)⟩
  | notRenewed id rest hfree hlength page hpage hexecutable =>
    refine ⟨_, Records.refused p (.notRenewed id _ ?_)⟩
    rw [getElem?_regions hpage, Page.region, hexecutable, hvacant id rest hfree page hpage,
      lengthOf_eq hpage]
  | opened hshort => exact ⟨_, Records.opened p _⟩
  | notOpened hshort => exact ⟨_, Records.refused p (.notAllocated _)⟩

/-- Users go at the end of an action, and nothing else changes but the lists of the pool. -/
structure Settles (p q : Pool) : Prop where
  history : q.allocator.history = p.allocator.history
  regions : Relet p.regions q.regions
  memory : ∀ (id : Nat) (page : Page), p.pages[id]? = some page →
    ∃ after, q.pages[id]? = some after ∧ after.memory = page.memory

theorem Settles.same (hhistory : q.allocator.history = p.allocator.history)
    (hpages : q.pages = p.pages) : p.Settles q where
  history := hhistory
  regions := by
    rw [regions_congr hpages]
    exact .refl _
  memory := by
    intro id page hpage
    exact ⟨page, hpages ▸ hpage, rfl⟩

theorem Settles.update (id : Nat) (f : Page → Page)
    (hshape : ∀ page, (f page).length = page.length ∧ (f page).protection = page.protection)
    (hmemory : ∀ page, (f page).memory = page.memory) : p.Settles (p.update id f) where
  history := rfl
  regions := relet_update hshape
  memory := by
    intro j page hpage
    by_cases hij : id = j
    · subst hij
      exact ⟨f page, getElem?_update hpage f, hmemory page⟩
    · exact ⟨page, by rw [Pool.update, List.getElem?_modify_ne _ _ hij, hpage], rfl⟩

theorem Settles.trans (h : p.Settles q) (hrest : q.Settles r) : p.Settles r where
  history := hrest.history.trans h.history
  regions := h.regions.trans hrest.regions
  memory := by
    intro id page hpage
    obtain ⟨between, hbetween, hsame⟩ := h.memory id page hpage
    obtain ⟨after, hafter, hsame'⟩ := hrest.memory id between hbetween
    exact ⟨after, hafter, hsame'.trans hsame⟩

def Does (p : Pool) (events : List Page.Event) (q : Pool) : Prop :=
  ∃ between, p.Records events between ∧ between.Settles q

theorem Records.does (h : p.Records events q) (hhistory : r.allocator.history = q.allocator.history)
    (hpages : r.pages = q.pages) : p.Does events r :=
  ⟨q, h, .same hhistory hpages⟩

theorem PlacingAnew.does {code : List UInt8} {pack : Bool}
    {outcome : Except Error Placement × Pool} (h : p.PlacingAnew code pack outcome)
    (hpool : p.Accounted []) : ∃ events, p.Does events outcome.2 := by
  cases h with
  | noPage e q hacquire =>
    obtain ⟨events, hevents⟩ := hacquire.records hpool
    exact ⟨events, hevents.does rfl rfl⟩
  | inProgress id q hacquire hpack =>
    obtain ⟨events, hevents⟩ := hacquire.records hpool
    obtain ⟨-, -, page, hpage, -, hwritable, -⟩ := hpool.acquired hacquire
    exact ⟨_, (hevents.trans (Records.write hpage hwritable 0 code)).does rfl rfl⟩
  | executable id q hacquire hpack =>
    obtain ⟨events, hevents⟩ := hacquire.records hpool
    obtain ⟨-, -, page, hpage, -, hwritable, -⟩ := hpool.acquired hacquire
    have hwritten := hevents.trans (Records.write hpage hwritable 0 code)
    have hfrozen := hwritten.trans (Records.frozen (getElem?_update hpage _) hwritable)
    exact ⟨_, hfrozen.does rfl rfl⟩
  | givenBack id q hacquire hpack =>
    obtain ⟨events, hevents⟩ := hacquire.records hpool
    obtain ⟨-, -, page, hpage, -, hwritable, -⟩ := hpool.acquired hacquire
    have hpage' : (q.write id 0 code).pages[id]? = some (page.write 0 code) :=
      getElem?_update hpage _
    have hwritten := hevents.trans (Records.write hpage hwritable 0 code)
    refine ⟨_, _, hwritten.trans (Records.notFrozen hpage' hwritable), ?_⟩
    have hleft := Settles.update
      (p := (q.write id 0 code).refused (.freeze id ((q.write id 0 code).lengthOf id))) id
      (fun page => { page with refs := page.refs - 1, used := 0 }) (fun _ => ⟨rfl, rfl⟩)
      (fun _ => rfl)
    exact hleft.trans (.same rfl rfl)

theorem pending_writable (hpool : p.Accounted []) (hpending : p.pending = some id) :
    ∃ page, p.pages[id]? = some page ∧ page.protection = .writable := by
  obtain ⟨page, hpage, hoccupied⟩ := hpool.occupied id (hpool.pending id hpending)
  rw [protectionOf, if_pos hpending] at hoccupied
  exact ⟨page, hpage, hoccupied.protection⟩

theorem Placing.does {code : List UInt8} {pack : Bool} {outcome : Except Error Placement × Pool}
    (h : p.Placing code pack outcome) (hpool : p.Accounted []) :
    ∃ events, p.Does events outcome.2 := by
  cases h with
  | joined id hpending hpack hroom =>
    obtain ⟨page, hpage, hwritable⟩ := pending_writable hpool hpending
    have hpacked := Records.remark p (e := .packed id (alignUp (p.usedOf id) codeAlign) code.length)
      rfl
    refine ⟨_, (hpacked.trans (Records.write ?_ hwritable _ code)).does rfl rfl⟩
    exact hpage
  | notFlushed id hpending hpack hfull =>
    obtain ⟨page, hpage, hwritable⟩ := pending_writable hpool hpending
    exact ⟨_, (Records.notFrozen hpage hwritable).does rfl rfl⟩
  | flushed id hpending hpack hfull outcome hplace =>
    obtain ⟨page, hpage, hwritable⟩ := pending_writable hpool hpending
    obtain ⟨events, between, hevents, hsettles⟩ := hplace.does (hpool.flush hpending)
    have hflushed : p.Records _ { p.frozen id with pending := none } :=
      (Records.frozen hpage hwritable).relist rfl rfl
    exact ⟨_, between, hflushed.trans hevents, hsettles⟩
  | anew hpending outcome hplace => exact hplace.does hpool

theorem FreezingPending.does {outcome : Except Error Unit × Pool} (h : p.FreezingPending outcome)
    (hpool : p.Accounted []) : ∃ events, p.Does events outcome.2 := by
  cases h with
  | idle hpending => exact ⟨_, (Records.refl p).does rfl rfl⟩
  | granted id hpending =>
    obtain ⟨page, hpage, hwritable⟩ := pending_writable hpool hpending
    exact ⟨_, (Records.frozen hpage hwritable).does rfl rfl⟩
  | refused id hpending =>
    obtain ⟨page, hpage, hwritable⟩ := pending_writable hpool hpending
    exact ⟨_, (Records.notFrozen hpage hwritable).does rfl rfl⟩

theorem Releasing.does (h : p.Releasing id q) : ∃ events, p.Does events q := by
  have hemptied (p : Pool) : p.Settles (p.emptied id) :=
    (Settles.update id (fun page => { page with refs := page.refs - 1, used := 0 })
      (fun _ => ⟨rfl, rfl⟩) (fun _ => rfl)).trans (.same rfl rfl)
  cases h with
  | absent hpage => exact ⟨_, (Records.refl p).does rfl rfl⟩
  | kept page hpage hrefs =>
    exact ⟨_, p, .refl p, .update id _ (fun _ => ⟨rfl, rfl⟩) (fun _ => rfl)⟩
  | vacated page hpage hrefs hactive =>
    exact ⟨_, _, .remark p (e := .vacated id) rfl, (hemptied _).trans (.same rfl rfl)⟩
  | emptied page hpage hrefs hactive => exact ⟨_, p, .refl p, hemptied p⟩

/-- Every action follows the rules. -/
theorem act_does (hpool : p.Accounted []) (action : Action) :
    ∃ events, p.Does events (p.act action) := by
  cases action with
  | place code pack => exact (p.place_outcome code pack).does hpool
  | freezePending => exact p.freezePending_outcome.does hpool
  | release id => exact (p.release_outcome id).does

end Pool

end Reckoner
