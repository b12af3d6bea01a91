import Reckoner.Proofs.Page.Trace

/-! Pages are written to or run from, never both. The calls to the allocator show it: for each region
they are one allocation, then freezing and renewing in turn, and in the end one release. -/
namespace Reckoner

inductive RegionCall where
  | allocate (length : Nat)
  | freeze (length : Nat)
  | renew (length : Nat)
  | free (length : Nat)
  deriving DecidableEq, Repr

namespace Page.Event

def isAllocation : Event → Bool
  | granted (.allocate _) => true
  | granted (.freeze _ _) | granted (.renew _ _) | refused _ | freed _ _ | opened _ _ | reused _ _
  | packed _ _ _ | wrote _ _ _ | frozen _ | vacated _ => false

/-- The successful call that the event is for a region. Regions are numbered in the order of their
allocation, and `count` of them have been allocated before. -/
def callOn (region count : Nat) : Event → Option RegionCall
  | granted (.allocate length) => if count = region then some (.allocate length) else none
  | granted (.freeze id length) => if id = region then some (.freeze length) else none
  | granted (.renew id length) => if id = region then some (.renew length) else none
  | freed id length => if id = region then some (.free length) else none
  | refused _ | opened _ _ | reused _ _ | packed _ _ _ | wrote _ _ _ | frozen _ | vacated _ => none

end Page.Event

def callsFrom (region : Nat) : Nat → List Page.Event → List RegionCall
  | _, [] => []
  | count, e :: rest =>
    (e.callOn region count).toList ++
      callsFrom region (if e.isAllocation then count + 1 else count) rest

def callsOn (region : Nat) (events : List Page.Event) : List RegionCall := callsFrom region 0 events

/-- The calls for a region that is in use: after its allocation it is frozen and renewed in turn. The
last call says how the region is protected, and all of them give its length. -/
inductive Alternating (length : Nat) : Protection → List RegionCall → Prop
  | allocated : Alternating length .writable [.allocate length]
  | frozen {calls : List RegionCall} (h : Alternating length .writable calls) :
    Alternating length .executable (calls ++ [.freeze length])
  | renewed {calls : List RegionCall} (h : Alternating length .executable calls) :
    Alternating length .writable (calls ++ [.renew length])

theorem callsFrom_append (region count : Nat) (events rest : List Page.Event) :
    callsFrom region count (events ++ rest) =
      callsFrom region count events ++
        callsFrom region (count + events.countP Page.Event.isAllocation) rest := by
  induction events generalizing count with
  | nil => rfl
  | cons e events ih =>
    rw [List.cons_append, callsFrom, callsFrom, ih, List.append_assoc, List.countP_cons]
    congr 3
    split <;> omega

theorem callsOn_append (region : Nat) (events rest : List Page.Event) :
    callsOn region (events ++ rest) =
      callsOn region events ++ callsFrom region (events.countP Page.Event.isAllocation) rest := by
  rw [callsOn, callsFrom_append, Nat.zero_add]
  rfl

theorem callsOn_concat (region : Nat) (events : List Page.Event) (e : Page.Event) :
    callsOn region (events ++ [e]) =
      callsOn region events ++
        (e.callOn region (events.countP Page.Event.isAllocation)).toList := by
  rw [callsOn_append, callsFrom, callsFrom, List.append_nil]

structure Chronicle (regions : List Region) (events : List Page.Event) : Prop where
  count : events.countP Page.Event.isAllocation = regions.length
  calls : ∀ (id : Nat) (r : Region), regions[id]? = some r →
    Alternating r.length r.protection (callsOn id events)
  others : ∀ id, regions.length ≤ id → callsOn id events = []

namespace Chronicle

open Region

variable {regions after : List Region} {events rest : List Page.Event} {e : Page.Event}

theorem empty : Chronicle [] [] := ⟨rfl, by simp, fun _ _ => rfl⟩

theorem relet (h : Chronicle regions events) (hrelet : Relet regions after) :
    Chronicle after events where
  count := h.count.trans hrelet.length_eq.symm
  calls := by
    intro id r hr
    obtain ⟨before, hbefore, hlength, hprotection⟩ := hrelet.same id r hr
    rw [← hlength, ← hprotection]
    exact h.calls id before hbefore
  others id hid := h.others id (hrelet.length_eq ▸ hid)

theorem quiet (h : Chronicle regions events) (hcall : ∀ id count, e.callOn id count = none)
    (hallocation : e.isAllocation = false) : Chronicle regions (events ++ [e]) where
  count := by rw [List.countP_append, List.countP_singleton, h.count]; simp [hallocation]
  calls := by
    intro id r hr
    rw [callsOn_concat, hcall, Option.toList_none, List.append_nil]
    exact h.calls id r hr
  others := by
    intro id hid
    rw [callsOn_concat, hcall, Option.toList_none, List.append_nil]
    exact h.others id hid

theorem change (h : Chronicle regions events) {id : Nat} {r r' : Region} {call : RegionCall}
    (hr : regions[id]? = some r)
    (hcall : ∀ j count, e.callOn j count = if id = j then some call else none)
    (hallocation : e.isAllocation = false)
    (hnext : ∀ calls, Alternating r.length r.protection calls →
      Alternating r'.length r'.protection (calls ++ [call])) :
    Chronicle (regions.set id r') (events ++ [e]) where
  count := by
    rw [List.countP_append, List.countP_singleton, h.count, List.length_set]
    simp [hallocation]
  calls := by
    intro j s hs
    rw [callsOn_concat, hcall]
    by_cases hij : id = j
    · subst hij
      have hlt : id < regions.length := (List.getElem?_eq_some_iff.1 hr).1
      rw [List.getElem?_set_self hlt] at hs
      obtain rfl := Option.some.inj hs
      rw [if_pos rfl]
      exact hnext _ (h.calls id r hr)
    · rw [List.getElem?_set_ne hij] at hs
      rw [if_neg hij, Option.toList_none, List.append_nil]
      exact h.calls j s hs
  others := by
    intro j hj
    rw [List.length_set] at hj
    have hij : id ≠ j := by
      have hlt : id < regions.length := (List.getElem?_eq_some_iff.1 hr).1
      omega
    rw [callsOn_concat, hcall, if_neg hij, Option.toList_none, List.append_nil]
    exact h.others j hj

theorem allocate (h : Chronicle regions events) (length : Nat) :
    Chronicle (regions ++ [⟨length, .writable, 0⟩]) (events ++ [.granted (.allocate length)]) where
  count := by
    rw [List.countP_append, List.countP_singleton, h.count, List.length_append,
      List.length_singleton]
    rfl
  calls := by
    intro id r hr
    rw [callsOn_concat, h.count, Page.Event.callOn]
    by_cases hid : regions.length = id
    · rw [if_pos hid, h.others id (Nat.le_of_eq hid)]
      subst hid
      rw [List.getElem?_concat_length] at hr
      obtain rfl := Option.some.inj hr
      exact .allocated
    · have hlt : id < regions.length := by
        have hlt := (List.getElem?_eq_some_iff.1 hr).1
        rw [List.length_append, List.length_singleton] at hlt
        omega
      rw [List.getElem?_append_left hlt] at hr
      rw [if_neg hid, Option.toList_none, List.append_nil]
      exact h.calls id r hr
  others := by
    intro id hid
    rw [List.length_append, List.length_singleton] at hid
    have hne : regions.length ≠ id := by omega
    rw [callsOn_concat, h.count, Page.Event.callOn, if_neg hne, Option.toList_none, List.append_nil]
    exact h.others id (by omega)

theorem step (h : Chronicle regions events) (hstep : Step regions e after) :
    Chronicle after (events ++ [e]) := by
  cases hstep with
  | allocated length => exact h.allocate length
  | frozen id length users hr => exact h.change hr (fun _ _ => rfl) rfl (fun _ => .frozen)
  | renewed id length hr => exact h.change hr (fun _ _ => rfl) rfl (fun _ => .renewed)
  | written id offset count length users hr =>
    refine (h.quiet (fun _ _ => rfl) rfl).relet ⟨List.length_set, fun j s hs => ?_⟩
    by_cases hij : id = j
    · subst hij
      have hlt : id < regions.length := (List.getElem?_eq_some_iff.1 hr).1
      rw [List.getElem?_set_self hlt] at hs
      obtain rfl := Option.some.inj hs
      exact ⟨_, hr, rfl, rfl⟩
    · rw [List.getElem?_set_ne hij] at hs
      exact ⟨s, hs, rfl, rfl⟩
  | notAllocated length => exact h.quiet (fun _ _ => rfl) rfl
  | notFrozen id length users hr => exact h.quiet (fun _ _ => rfl) rfl
  | notRenewed id length hr => exact h.quiet (fun _ _ => rfl) rfl
  | remark e hremark =>
    cases e with
    | granted request => contradiction
    | refused request => contradiction
    | freed region length => contradiction
    | wrote page offset count => contradiction
    | opened page length => exact h.quiet (fun _ _ => rfl) rfl
    | reused page length => exact h.quiet (fun _ _ => rfl) rfl
    | packed page offset length => exact h.quiet (fun _ _ => rfl) rfl
    | frozen page => exact h.quiet (fun _ _ => rfl) rfl
    | vacated page => exact h.quiet (fun _ _ => rfl) rfl

theorem steps (h : Chronicle regions events) (hsteps : Steps regions rest after) :
    Chronicle after (events ++ rest) := by
  induction hsteps generalizing events with
  | nil regions => rwa [List.append_nil]
  | cons hstep _ ih =>
    rw [List.append_cons]
    exact ih (h.step hstep)

end Chronicle

def Timely (events : List Page.Event) : Prop :=
  ∀ earlier e later, events = earlier ++ e :: later →
    ∃ found left, Chronicle found earlier ∧ Region.Step found e left

theorem Timely.append {regions after : List Region} {events rest : List Page.Event}
    (h : Timely events) (hchronicle : Chronicle regions events)
    (hsteps : Region.Steps regions rest after) : Timely (events ++ rest) := by
  intro earlier e later heq
  rcases List.append_eq_append_iff.1 heq with ⟨more, rfl, rfl⟩ | ⟨more, rfl, hmore⟩
  · obtain ⟨found, left, hfound, hleft⟩ := hsteps.step_of_append
    exact ⟨found, left, hchronicle.steps hfound, hleft⟩
  · cases more with
    | nil =>
      rw [List.nil_append] at hmore
      subst hmore
      cases hsteps with
      | cons hstep hrest => exact ⟨regions, _, by simpa using hchronicle, hstep⟩
    | cons first more =>
      obtain ⟨rfl, -⟩ := List.cons.inj hmore
      exact h earlier e more rfl

/-! The end of a pool. -/

def Page.freeings (pages : List Page) (start : Nat) : List Page.Event :=
  (pages.zipIdx start).map fun (page, id) => .freed id page.length

theorem callsFrom_freeings (region count : Nat) (pages : List Page) (start : Nat) :
    callsFrom region count (Page.freeings pages start) =
      if start ≤ region then (pages[region - start]?.map fun page => .free page.length).toList
      else [] := by
  induction pages generalizing start with
  | nil => simp [Page.freeings, callsFrom]
  | cons page pages ih =>
    have hcons : Page.freeings (page :: pages) start =
        .freed start page.length :: Page.freeings pages (start + 1) := rfl
    rw [hcons, callsFrom]
    change _ ++ callsFrom region count _ = _
    rw [ih, Page.Event.callOn]
    by_cases hself : start = region
    · subst hself
      have hlt : ¬ start + 1 ≤ start := Nat.not_succ_le_self start
      simp [hlt]
    · by_cases hle : start ≤ region
      · have hsub : region - start = region - (start + 1) + 1 := by omega
        have hle' : start + 1 ≤ region := by omega
        rw [if_neg hself, if_pos hle', if_pos hle, hsub, List.getElem?_cons_succ]
        rfl
      · have hle' : ¬ start + 1 ≤ region := by omega
        rw [if_neg hself, if_neg hle', if_neg hle]
        rfl

namespace Pool

variable {p q : Pool}

theorem history_close (p : Pool) :
    p.close.allocator.history = p.allocator.history ++ Page.freeings p.pages 0 := by
  have hrecord (events : List Page.Event) (a : Allocator) :
      (events.foldl Allocator.record a).history = a.history ++ events := by
    induction events generalizing a with
    | nil => exact (List.append_nil _).symm
    | cons e events ih => rw [List.foldl_cons, ih, Allocator.record, ← List.append_cons]
  exact hrecord _ p.allocator

theorem eventsSince_eq {events : List Page.Event}
    (h : q.allocator.history = p.allocator.history ++ events) : q.eventsSince p = events := by
  rw [eventsSince, h, List.drop_left]

structure Chronicled (start p : Pool) (events : List Page.Event) : Prop where
  accounted : p.Accounted []
  history : p.allocator.history = start.allocator.history ++ events
  chronicle : Chronicle p.regions events
  timely : Timely events

theorem Chronicled.act {start : Pool} {events : List Page.Event} (h : start.Chronicled p events)
    (action : Action) : ∃ more, start.Chronicled (p.act action) (events ++ more) := by
  obtain ⟨more, between, hrecords, hsettles⟩ := act_does h.accounted action
  refine ⟨more, h.accounted.act action, ?_, ?_, ?_⟩
  · rw [hsettles.history, hrecords.history, h.history, List.append_assoc]
  · exact (h.chronicle.steps hrecords.regions).relet hsettles.regions
  · exact h.timely.append h.chronicle hrecords.regions

theorem Chronicled.actAll {start : Pool} {events : List Page.Event} (h : start.Chronicled p events)
    (actions : List Action) : ∃ more, start.Chronicled (p.actAll actions) (events ++ more) := by
  induction actions generalizing p events with
  | nil => exact ⟨[], by rwa [List.append_nil]⟩
  | cons action rest ih =>
    obtain ⟨first, hfirst⟩ := h.act action
    obtain ⟨more, hmore⟩ := ih hfirst
    exact ⟨first ++ more, by rwa [List.append_assoc] at hmore⟩

def lifetime (start : Pool) (actions : List Action) : List Page.Event :=
  (start.actAll actions).close.eventsSince start

structure Disciplined (start : Pool) (actions : List Action) : Prop where
  -- A region is allocated, then frozen and renewed in turn, and freed at the end and only then.
  calls : ∀ (id : Nat) (page : Page), (start.actAll actions).pages[id]? = some page →
    Alternating page.length page.protection
      (callsOn id ((start.actAll actions).eventsSince start)) ∧
    callsOn id (start.lifetime actions) =
      callsOn id ((start.actAll actions).eventsSince start) ++ [.free page.length]
  others : ∀ id, (start.actAll actions).pages[id]? = none → callsOn id (start.lifetime actions) = []
  -- Only writable regions are to be frozen.
  freezes : ∀ earlier e later, start.lifetime actions = earlier ++ e :: later →
    ∀ id length, e.request? = some (.freeze id length) →
      Alternating length .writable (callsOn id earlier)
  -- Only executable regions are to be renewed.
  renews : ∀ earlier e later, start.lifetime actions = earlier ++ e :: later →
    ∀ id length, e.request? = some (.renew id length) →
      Alternating length .executable (callsOn id earlier)
  -- Their pages have no users: they had none before the action, and nothing has been written to them
  -- since.
  vacant : ∀ before action after, actions = before ++ action :: after →
    ∀ earlier e later,
      ((start.actAll before).act action).eventsSince (start.actAll before) =
        earlier ++ e :: later →
      ∀ id length, e.request? = some (.renew id length) →
        (∀ page, (start.actAll before).pages[id]? = some page → page.refs = 0) ∧
        ∀ offset count, .wrote id offset count ∉ earlier
  -- Code is only written to writable regions.
  writes : ∀ earlier later id offset count,
    start.lifetime actions = earlier ++ .wrote id offset count :: later →
      ∃ length, Alternating length .writable (callsOn id earlier)
  -- No bytes of a page change unless code is written to it.
  bytes : ∀ before action after, actions = before ++ action :: after →
    ∀ (id : Nat) (page : Page), (start.actAll before).pages[id]? = some page →
      ∃ page', ((start.actAll before).act action).pages[id]? = some page' ∧
        (page'.memory = page.memory ∨ ∃ offset count, .wrote id offset count ∈
          ((start.actAll before).act action).eventsSince (start.actAll before))

theorem Chronicled.empty {a : Allocator} (h : 0 < a.pageSize) :
    (Pool.empty a).Chronicled (Pool.empty a) [] where
  accounted := .empty h
  history := (List.append_nil _).symm
  chronicle := .empty
  timely := by simp [Timely]

theorem Chronicled.calls {start : Pool} {events : List Page.Event} (h : start.Chronicled p events)
    {id : Nat} {page : Page} (hpage : p.pages[id]? = some page) :
    Alternating page.length page.protection (callsOn id events) :=
  h.chronicle.calls id page.region (getElem?_regions hpage)

theorem Chronicled.eventsSince_close {start : Pool} {events : List Page.Event}
    (h : start.Chronicled p events) :
    p.close.eventsSince start = events ++ Page.freeings p.pages 0 := by
  apply eventsSince_eq
  rw [history_close, h.history, List.append_assoc]

theorem Chronicled.callsOn_close {start : Pool} {events : List Page.Event}
    (h : start.Chronicled p events) (id : Nat) :
    callsOn id (p.close.eventsSince start) =
      callsOn id events ++ (p.pages[id]?.map fun page => .free page.length).toList := by
  rw [h.eventsSince_close, callsOn_append, callsFrom_freeings, if_pos (Nat.zero_le id), Nat.sub_zero]

theorem Chronicled.step_of_close {start : Pool} {events : List Page.Event}
    (h : start.Chronicled p events) {earlier later : List Page.Event} {e : Page.Event}
    (heq : p.close.eventsSince start = earlier ++ e :: later)
    (he : ∀ region length, e ≠ .freed region length) :
    ∃ found left, Chronicle found earlier ∧ Region.Step found e left := by
  have hlast : e ∉ Page.freeings p.pages 0 := by
    intro hmem
    obtain ⟨⟨page, id⟩, -, rfl⟩ := List.mem_map.1 hmem
    exact he id page.length rfl
  rw [h.eventsSince_close] at heq
  rcases List.append_eq_append_iff.1 heq with ⟨more, -, hmore⟩ | ⟨more, hevents, hmore⟩
  · exact absurd (by simp [hmore]) hlast
  · cases more with
    | nil =>
      rw [List.nil_append] at hmore
      exact absurd (by simp [← hmore]) hlast
    | cons first more =>
      obtain ⟨rfl, -⟩ := List.cons.inj hmore
      exact h.timely earlier e more hevents

theorem vacant_of_renew (hpool : p.Accounted []) (action : Action)
    {earlier later : List Page.Event} {e : Page.Event}
    (hevents : (p.act action).eventsSince p = earlier ++ e :: later) {id length : Nat}
    (he : e.request? = some (.renew id length)) :
    (∀ page, p.pages[id]? = some page → page.refs = 0) ∧
      ∀ offset count, .wrote id offset count ∉ earlier := by
  obtain ⟨events, between, hrecords, hsettles⟩ := act_does hpool action
  rw [eventsSince_eq (hsettles.history.trans hrecords.history)] at hevents
  subst hevents
  obtain ⟨found, left, hfound, hstep⟩ := hrecords.regions.step_of_append
  obtain ⟨husers, hwrites⟩ := hfound.vacant (Region.usersOf_eq (hstep.of_renew he))
  refine ⟨fun page hpage => ?_, hwrites⟩
  rw [Region.usersOf_eq (getElem?_regions hpage)] at husers
  exact husers

theorem memory_act (hpool : p.Accounted []) (action : Action) {id : Nat} {page : Page}
    (hpage : p.pages[id]? = some page) :
    ∃ page', (p.act action).pages[id]? = some page' ∧
      (page'.memory = page.memory ∨
        ∃ offset count, .wrote id offset count ∈ (p.act action).eventsSince p) := by
  obtain ⟨events, between, hrecords, hsettles⟩ := act_does hpool action
  rw [eventsSince_eq (hsettles.history.trans hrecords.history)]
  obtain ⟨written, hwritten, hsame⟩ := hrecords.memory id page hpage
  obtain ⟨page', hpage', hsettled⟩ := hsettles.memory id written hwritten
  exact ⟨page', hpage', by rwa [hsettled]⟩

/-- Whatever is placed, frozen and released in whatever order, and whichever requests the allocator
refuses, the memory of a pool is writable or executable, and never written to or renewed while code
may run from it. -/
theorem actAll_disciplined (a : Allocator) (hpageSize : 0 < a.pageSize) (actions : List Action) :
    (Pool.empty a).Disciplined actions := by
  obtain ⟨events, h⟩ := (Chronicled.empty hpageSize).actAll actions
  have hstart (before : List Action) : ((Pool.empty a).actAll before).Accounted [] :=
    (Accounted.empty hpageSize).actAll before
  refine ⟨?_, ?_, ?_, ?_, ?_, ?_, ?_⟩
  · intro id page hpage
    rw [eventsSince_eq h.history, lifetime, h.callsOn_close, hpage]
    exact ⟨h.calls hpage, rfl⟩
  · intro id hnone
    have hid : ((Pool.empty a).actAll actions).regions.length ≤ id := by
      rw [regions, List.length_map]
      exact List.getElem?_eq_none_iff.1 hnone
    rw [lifetime, h.callsOn_close, hnone, h.chronicle.others id hid]
    rfl
  · intro earlier e later heq id length he
    obtain ⟨found, left, hfound, hstep⟩ := h.step_of_close heq (by rintro _ _ rfl; contradiction)
    obtain ⟨users, hregion⟩ := hstep.of_freeze he
    exact hfound.calls id _ hregion
  · intro earlier e later heq id length he
    obtain ⟨found, left, hfound, hstep⟩ := h.step_of_close heq (by rintro _ _ rfl; contradiction)
    exact hfound.calls id _ (hstep.of_renew he)
  · rintro before action after - earlier e later heq id length he
    exact vacant_of_renew (hstart before) action heq he
  · intro earlier later id offset count heq
    obtain ⟨found, left, hfound, hstep⟩ := h.step_of_close heq (by simp)
    obtain ⟨length, users, hregion⟩ := hstep.of_wrote
    exact ⟨length, hfound.calls id _ hregion⟩
  · rintro before action after - id page hpage
    exact memory_act (hstart before) action hpage

/-- One page all along. Renewing it is refused at first; then it cannot be frozen, and later not
while it is in progress, so that it is taken again twice without being renewed. -/
theorem actAll_disciplined_recycled :
    0 < 16 ∧
    callsOn 0 ((Pool.empty ⟨16, fun n _ => n = 6 || n = 10 || n = 13, []⟩).lifetime
      [.place [1, 2, 3] false, .release 0, .release 0, .place [4] true, .place [5] false,
        .place [6] true, .place [7] true, .release 0, .place [8] false]) =
      [.allocate 16, .freeze 16, .renew 16, .freeze 16, .free 16] ∧
    (Pool.empty ⟨16, fun n _ => n = 6 || n = 10 || n = 13, []⟩).Disciplined
      [.place [1, 2, 3] false, .release 0, .release 0, .place [4] true, .place [5] false,
        .place [6] true, .place [7] true, .release 0, .place [8] false] :=
  ⟨by decide, by decide, actAll_disciplined _ (by decide) _⟩

end Pool

end Reckoner
