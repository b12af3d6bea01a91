import Reckoner.Proofs.Context.Runs
import Reckoner.Proofs.Page.Protection
import Reckoner.Proofs.Session.Balance

/-! Pages outlive their users. A context and its calculations share the regions of its pool; nothing
is given back while one of them is alive, and all of it when the last one goes. -/
namespace Reckoner

/-- Every region was allocated, then frozen and renewed in turn, and freed once, at the end. -/
structure Returned (history : List Page.Event) : Prop where
  once : ∀ region < history.countP Page.Event.isAllocation,
    ∃ length protection calls, Alternating length protection calls ∧
      callsOn region history = calls ++ [.free length]
  others : ∀ region, history.countP Page.Event.isAllocation ≤ region → callsOn region history = []

namespace Pool

variable {p : Pool}

def Recorded (p : Pool) : Prop :=
  ∃ start : Pool, start.allocator.history = [] ∧ start.Chronicled p p.allocator.history

theorem Recorded.empty {a : Allocator} (hpageSize : 0 < a.pageSize) (hhistory : a.history = []) :
    (Pool.empty a).Recorded := by
  refine ⟨Pool.empty a, hhistory, ?_⟩
  have hempty : (Pool.empty a).allocator.history = [] := hhistory
  rw [hempty]
  exact .empty hpageSize

theorem Recorded.actAll (h : p.Recorded) (actions : List Action) :
    (p.actAll actions).Recorded ∧ p.allocator.history <+: (p.actAll actions).allocator.history := by
  obtain ⟨start, hstart, hchronicled⟩ := h
  obtain ⟨more, hmore⟩ := hchronicled.actAll actions
  have hhistory : (p.actAll actions).allocator.history = p.allocator.history ++ more := by
    rw [hmore.history, hstart, List.nil_append]
  refine ⟨⟨start, hstart, ?_⟩, more, hhistory.symm⟩
  rwa [hhistory]

theorem Recorded.setRefusal (h : p.Recorded) (kind : RequestKind) (refuse : Bool) :
    (p.setRefusal kind refuse).Recorded := by
  obtain ⟨start, hstart, hchronicled⟩ := h
  exact ⟨start, hstart, hchronicled.accounted.setRefusal kind refuse, hchronicled.history,
    hchronicled.chronicle, hchronicled.timely⟩

theorem Recorded.not_freed (h : p.Recorded) (region length : Nat) :
    .freed region length ∉ p.allocator.history := by
  intro hmem
  obtain ⟨start, -, hchronicled⟩ := h
  obtain ⟨earlier, later, heq⟩ := List.append_of_mem hmem
  obtain ⟨found, left, -, hstep⟩ := hchronicled.timely earlier _ later heq
  cases hstep with
  | remark e hremark => contradiction

theorem Recorded.returned (h : p.Recorded) : Returned p.close.allocator.history := by
  obtain ⟨start, hstart, hchronicled⟩ := h
  have hcalls (region : Nat) : callsOn region p.close.allocator.history =
      callsOn region p.allocator.history ++
        (p.pages[region]?.map fun page => .free page.length).toList := by
    have hclose := hchronicled.callsOn_close region
    rwa [eventsSince, hstart, List.length_nil, List.drop_zero] at hclose
  have hcount : p.close.allocator.history.countP Page.Event.isAllocation = p.pages.length := by
    have hfreeings : (Page.freeings p.pages 0).countP Page.Event.isAllocation = 0 := by
      simp [Page.freeings, Page.Event.isAllocation]
    rw [history_close, List.countP_append, hfreeings, hchronicled.chronicle.count, regions,
      List.length_map, Nat.add_zero]
  constructor
  · intro region hregion
    rw [hcount] at hregion
    have hpage := List.getElem?_eq_getElem hregion
    refine ⟨_, _, _, hchronicled.calls hpage, ?_⟩
    rw [hcalls, hpage]
    rfl
  · intro region hregion
    rw [hcount] at hregion
    have hnone : p.pages[region]? = none := List.getElem?_eq_none_iff.2 hregion
    rw [hcalls, hnone, hchronicled.chronicle.others region (by rwa [regions, List.length_map])]
    rfl

end Pool

namespace Member

variable {m m' m'' : Member}

inductive Change (m : Member) : Member → Prop
  | same : Change m m
  | used (halive : m.alive = true) (c : Context) (hruns : m.context.Runs c) :
    Change m { m with context := c }
  | discarded (hlive : 0 < m.context.live) (k : Calculation) (leases : Nat)
    (hleases : ∀ pool, (m.context.discard k).pool? = some pool → leases = (m.context.discard k).live) :
    Change m ({ m with context := m.context.discard k }.settle leases)
  | dropped (halive : m.alive = true) (leases : Nat)
    (hleases : ∀ pool, m.context.pool? = some pool → leases = m.context.live) :
    Change m ({ m with alive := false }.settle leases)
  -- Even a context that is gone can be told what to refuse.
  | told (kind : RequestKind) (refuse : Bool) :
    Change m { m with context := m.context.updatePool (·.setRefusal kind refuse) }
  | read (seen : Nat) : Change m { m with seen }

def Fresh (m : Member) : Prop :=
  m.alive = true ∧ ∀ pool, m.context.pool? = some pool →
    ∃ a : Allocator, 0 < a.pageSize ∧ a.history = [] ∧ pool = .empty a

def Extends (m m' : Member) : Prop :=
  ∀ pool, m.context.pool? = some pool →
    ∃ after, m'.context.pool? = some after ∧ pool.allocator.history <+: after.allocator.history

theorem Extends.refl (m : Member) : m.Extends m := fun pool hpool => ⟨pool, hpool, List.prefix_rfl⟩

theorem Extends.trans (h : m.Extends m') (hrest : m'.Extends m'') : m.Extends m'' := by
  intro pool hpool
  obtain ⟨between, hbetween, hhistory⟩ := h pool hpool
  obtain ⟨after, hafter, hhistory'⟩ := hrest between hbetween
  exact ⟨after, hafter, hhistory.trans hhistory'⟩

/-- The regions of a context are its own until nobody is left who could use them. -/
structure Accountable (m : Member) : Prop where
  kept : m.alive = true ∨ 0 < m.context.live → ∀ pool, m.context.pool? = some pool → pool.Recorded
  returned : m.alive = false → m.context.live = 0 →
    ∀ pool, m.context.pool? = some pool → Returned pool.allocator.history

theorem Fresh.accountable (h : m.Fresh) : m.Accountable where
  kept _ pool hpool := by
    obtain ⟨a, hpageSize, hhistory, rfl⟩ := h.2 pool hpool
    exact .empty hpageSize hhistory
  returned hdropped := by
    rw [h.1] at hdropped
    contradiction

theorem Accountable.settle {leases : Nat}
    (hleases : ∀ pool, m.context.pool? = some pool → leases = m.context.live)
    (h : ∀ pool, m.context.pool? = some pool → pool.Recorded) :
    (m.settle leases).Accountable ∧ m.Extends (m.settle leases) := by
  unfold Member.settle
  split
  next hgone =>
    obtain ⟨hdropped, hnone⟩ := owners_eq_zero_iff.1 hgone
    refine ⟨⟨?_, ?_⟩, ?_⟩
    · intro husers pool hpool
      rw [Context.updatePool_pool?] at hpool
      obtain ⟨before, hbefore, rfl⟩ := Option.map_eq_some_iff.1 hpool
      have hlive : m.context.live = 0 := (hleases before hbefore).symm.trans hnone
      simp [hdropped, hlive] at husers
    · intro _ _ pool hpool
      rw [Context.updatePool_pool?] at hpool
      obtain ⟨before, hbefore, rfl⟩ := Option.map_eq_some_iff.1 hpool
      exact (h before hbefore).returned
    · intro pool hpool
      refine ⟨pool.close, by rw [Context.updatePool_pool?, hpool]; rfl, ?_⟩
      rw [Pool.history_close]
      exact List.prefix_append _ _
  next hstays =>
    refine ⟨⟨fun _ => h, fun hdropped hlive pool hpool => ?_⟩, .refl m⟩
    have hnone : leases = 0 := (hleases pool hpool).trans hlive
    exact absurd (owners_eq_zero_iff.2 ⟨hdropped, hnone⟩) hstays

theorem Accountable.runs (h : m.Accountable) (husers : m.alive = true ∨ 0 < m.context.live)
    {c : Context} (hruns : m.context.Runs c) :
    (∀ pool, c.pool? = some pool → pool.Recorded) ∧ m.Extends { m with context := c } := by
  obtain ⟨actions, hactions⟩ := hruns
  constructor
  · intro pool hpool
    rw [hactions] at hpool
    obtain ⟨before, hbefore, rfl⟩ := Option.map_eq_some_iff.1 hpool
    exact ((h.kept husers before hbefore).actAll actions).1
  · intro pool hpool
    refine ⟨pool.actAll actions, by rw [hactions, hpool]; rfl, ?_⟩
    exact ((h.kept husers pool hpool).actAll actions).2

theorem Accountable.told (h : m.Accountable) (kind : RequestKind) (refuse : Bool) :
    { m with context := m.context.updatePool (·.setRefusal kind refuse) }.Accountable where
  kept husers pool hpool := by
    rw [Context.updatePool_live] at husers
    rw [Context.updatePool_pool?] at hpool
    obtain ⟨before, hbefore, rfl⟩ := Option.map_eq_some_iff.1 hpool
    exact (h.kept husers before hbefore).setRefusal kind refuse
  returned hdropped hlive pool hpool := by
    rw [Context.updatePool_live] at hlive
    rw [Context.updatePool_pool?] at hpool
    obtain ⟨before, hbefore, rfl⟩ := Option.map_eq_some_iff.1 hpool
    exact h.returned hdropped hlive before hbefore

theorem Accountable.changed (h : m.Accountable) (hchange : m.Change m') :
    m'.Accountable ∧ m.Extends m' := by
  cases hchange with
  | same => exact ⟨h, .refl m⟩
  | used halive c hruns =>
    obtain ⟨hrecorded, hextends⟩ := h.runs (.inl halive) hruns
    refine ⟨⟨fun _ => hrecorded, fun hdropped => ?_⟩, hextends⟩
    rw [halive] at hdropped
    contradiction
  | discarded hlive k leases hleases =>
    obtain ⟨hrecorded, hextends⟩ := h.runs (.inr hlive) (m.context.discard_runs k)
    obtain ⟨hsettled, hrest⟩ :=
      settle (m := { m with context := m.context.discard k }) hleases hrecorded
    exact ⟨hsettled, hextends.trans hrest⟩
  | dropped halive leases hleases =>
    exact settle (m := { m with alive := false }) hleases (h.kept (.inl halive))
  | told kind refuse =>
    refine ⟨h.told kind refuse, fun pool hpool => ?_⟩
    exact ⟨pool.setRefusal kind refuse, by rw [Context.updatePool_pool?, hpool]; rfl,
      List.prefix_rfl⟩
  | read seen => exact ⟨⟨h.kept, h.returned⟩, .refl m⟩

end Member

namespace Session

variable {s s' : Session} {id : Nat}

structure Advances (s s' : Session) : Prop where
  changes : ∀ (id : Nat) (m : Member), s.contexts[id]? = some m →
    ∃ m', s'.contexts[id]? = some m' ∧ m.Change m'
  fresh : ∀ (id : Nat) (m : Member), s.contexts[id]? = none → s'.contexts[id]? = some m → m.Fresh

theorem Advances.same (h : s'.contexts = s.contexts) : s.Advances s' where
  changes id m hm := ⟨m, by rw [h, hm], .same⟩
  fresh id m hnone hm := by
    rw [h, hnone] at hm
    contradiction

theorem Advances.modify {f : Member → Member} (hcontexts : s'.contexts = s.contexts.modify id f)
    (hf : ∀ m, s.contexts[id]? = some m → m.Change (f m)) : s.Advances s' where
  changes j m hm := by
    rw [hcontexts]
    by_cases hij : id = j
    · subst hij
      exact ⟨f m, by rw [List.getElem?_modify_eq, hm]; rfl, hf m hm⟩
    · exact ⟨m, by rw [List.getElem?_modify_ne _ _ hij, hm], .same⟩
  fresh j m hnone hm := by
    rw [hcontexts] at hm
    simp [List.getElem?_modify, hnone] at hm

theorem Advances.addContext {c : Context} (hpool : ∀ pool, c.pool? = some pool →
      ∃ a : Allocator, 0 < a.pageSize ∧ a.history = [] ∧ pool = .empty a) (observed : Bool) :
    s.Advances (s.addContext c observed) where
  changes id m hm := by
    refine ⟨m, ?_, .same⟩
    rw [Session.addContext, List.getElem?_append_left (List.getElem?_eq_some_iff.1 hm).1, hm]
  fresh id m hnone hm := by
    rw [Session.addContext, List.getElem?_append_right (List.getElem?_eq_none_iff.1 hnone)] at hm
    obtain rfl := List.mem_singleton.1 (List.mem_of_getElem? hm)
    exact ⟨rfl, hpool⟩

theorem Advances.used {c c' : Context} (hc : s.context? id = some c) (hruns : c.Runs c')
    (hcontexts : s'.contexts = (s.setContext id c').contexts) : s.Advances s' := by
  refine .modify hcontexts fun m hm => ?_
  obtain ⟨m', hm', halive, rfl⟩ := context?_eq_some hc
  obtain rfl := Option.some.inj (hm.symm.trans hm')
  exact .used halive c' hruns

theorem keep_contexts (s : Session) (owner : Nat) (outcome : Context.Outcome) :
    (s.keep owner outcome).session.contexts = (s.setContext owner outcome.context).contexts := by
  unfold keep
  cases outcome.result <;> rfl

theorem Advances.discard (h : s.InOrder) {k : Nat} {held : Held}
    (hk : s.calculation? k = some held) : s.Advances (s.discard k held) := by
  unfold Session.discard
  cases howner : held.owner with
  | none => exact .same rfl
  | some owner =>
    have hperm := living_discarded (Option.join_eq_some_iff.1 hk) owner
    rw [ownedBy_some, if_pos howner] at hperm
    refine .modify rfl fun m hm => .discarded ?_ held.calculation _ fun pool hpool => ?_
    · rw [h.balanced.live owner m hm, living, hperm.length_eq]
      exact Nat.succ_pos _
    · rw [leases_eq]
      exact (h.members owner m hm).leased_discarded hperm hpool

theorem step_advances (h : s.InOrder) (A : Arithmetic) (command : Command) :
    s.Advances (s.step A command).session := by
  have hsame : s.Advances s := .same rfl
  cases command with
  | newContext platform backend options =>
    refine .addContext (fun pool hpool => ?_) false
    obtain ⟨foundry, hengine, rfl⟩ := Context.pool?_eq_some_iff.1 hpool
    rw [(Context.foundry_of_ofBackend hengine).2]
    exact ⟨_, platform.pageSize.property, rfl, rfl⟩
  | newObserved platform options =>
    refine .addContext (fun pool hpool => ?_) true
    exact ⟨_, platform.pageSize.property, rfl, (Option.some.inj hpool).symm⟩
  | setOptions id options =>
    refine withContext_session hsame fun c hc => ?_
    have hruns : c.Runs { c with options } := .of_eq rfl
    exact .used hc hruns rfl
  | status id => exact withContext_session hsame fun _ _ => hsame
  | compile id names source options =>
    refine withContext_session hsame fun c hc => ?_
    exact .used hc (c.compileScoped_runs A _ _ _ false) (keep_contexts s id _)
  | compileItem id item =>
    refine withContext_session hsame fun c hc => ?_
    exact .used hc (c.compileScoped_runs A _ _ _ false) (keep_contexts s id _)
  | compileBatch id keepGoing items =>
    refine withContext_session hsame fun c hc => .used hc (c.compileBatch_runs A keepGoing items) ?_
    dsimp only
    rw [keepSlots_session]
  | calculate id args => exact withCalculation_session hsame fun _ _ => hsame
  | calculateUnchecked id args => exact withCalculation_session hsame fun _ _ => hsame
  | describe id => exact withCalculation_session hsame fun _ _ => hsame
  | free owner id =>
    exact withContext_session hsame fun _ _ =>
      withCalculation_session hsame fun _ hk => .discard h hk
  | dropCalculation id => exact withCalculation_session hsame fun _ hk => .discard h hk
  | dropContext id =>
    refine withContext_session hsame fun c hc => .modify rfl fun m hm => ?_
    obtain ⟨m', hm', halive, -⟩ := context?_eq_some hc
    obtain rfl := Option.some.inj (hm.symm.trans hm')
    exact .dropped halive _ fun pool hpool => h.balanced.leases id m pool hm hpool
  | load stream =>
    rw [Session.step]
    cases Calculation.ofStream stream with
    | ok k => exact .same rfl
    | error e => exact hsame
  | newBuilder id => exact withContext_session hsame fun _ _ => .same rfl
  | build id calls => exact withBuilder_session hsame fun _ => .same rfl
  | finalize owner id =>
    refine withContext_session hsame fun c hc => withBuilder_session hsame fun b => ?_
    exact .used hc (c.finalize_runs b false) (keep_contexts _ owner _)
  | abandon owner id =>
    exact withContext_session hsame fun _ _ => withBuilder_session hsame fun _ => .same rfl
  | setRefusal id kind refuse =>
    rw [Session.step]
    cases hm : s.observed? id with
    | none => exact hsame
    | some m =>
      refine .modify rfl fun m' hm' => ?_
      obtain rfl := Option.some.inj (hm'.symm.trans (observed?_eq_some hm))
      exact .told kind refuse
  | allocatorCalls id =>
    rw [Session.step]
    cases hm : s.observed? id with
    | none => exact hsame
    | some m => exact .modify rfl fun _ _ => .read _

structure Orderly (s : Session) : Prop where
  inOrder : s.InOrder
  accountable : ∀ (id : Nat) (m : Member), s.contexts[id]? = some m → m.Accountable

def Extends (s s' : Session) : Prop :=
  ∀ (id : Nat) (m : Member), s.contexts[id]? = some m →
    ∃ m', s'.contexts[id]? = some m' ∧ m.Extends m'

theorem Orderly.step (h : s.Orderly) (A : Arithmetic) (command : Command) :
    (s.step A command).session.Orderly ∧ s.Extends (s.step A command).session := by
  have hadvances := step_advances h.inOrder A command
  refine ⟨⟨h.inOrder.step A command, fun id m' hm' => ?_⟩, fun id m hm => ?_⟩
  · cases hm : s.contexts[id]? with
    | none => exact (hadvances.fresh id m' hm hm').accountable
    | some m =>
      obtain ⟨after, hafter, hchange⟩ := hadvances.changes id m hm
      obtain rfl := Option.some.inj (hm'.symm.trans hafter)
      exact ((h.accountable id m hm).changed hchange).1
  · obtain ⟨after, hafter, hchange⟩ := hadvances.changes id m hm
    exact ⟨after, hafter, ((h.accountable id m hm).changed hchange).2⟩

theorem stepAll_append (A : Arithmetic) (s : Session) (commands rest : List Command) :
    s.stepAll A (commands ++ rest) = (s.stepAll A commands).stepAll A rest :=
  List.foldl_append

theorem Orderly.stepAll (h : s.Orderly) (A : Arithmetic) (commands : List Command) :
    (s.stepAll A commands).Orderly ∧ s.Extends (s.stepAll A commands) := by
  induction commands generalizing s with
  | nil => exact ⟨h, fun id m hm => ⟨m, hm, .refl m⟩⟩
  | cons command rest ih =>
    obtain ⟨hstep, hextends⟩ := h.step A command
    obtain ⟨hrest, hextends'⟩ := ih hstep
    refine ⟨hrest, fun id m hm => ?_⟩
    obtain ⟨between, hbetween, hfirst⟩ := hextends id m hm
    obtain ⟨after, hafter, hthen⟩ := hextends' id between hbetween
    exact ⟨after, hafter, hfirst.trans hthen⟩

theorem Orderly.empty : Session.empty.Orderly := ⟨.empty, by simp [Session.empty]⟩

structure Custodial (A : Arithmetic) (commands : List Command) : Prop where
  -- Nothing is freed while the context or a calculation that it made is alive.
  kept : ∀ (id : Nat) (m : Member) (pool : Pool),
    (Session.empty.stepAll A commands).contexts[id]? = some m → m.context.pool? = some pool →
      m.alive = true ∨ (Session.empty.stepAll A commands).living id ≠ [] →
        ∀ region length, .freed region length ∉ pool.allocator.history
  -- When they are gone every region has been freed once.
  returned : ∀ (id : Nat) (m : Member) (pool : Pool),
    (Session.empty.stepAll A commands).contexts[id]? = some m → m.context.pool? = some pool →
      m.alive = false → (Session.empty.stepAll A commands).living id = [] →
        Returned pool.allocator.history
  -- What was on record after the first of the commands still is.
  recorded : ∀ before after, commands = before ++ after →
    (Session.empty.stepAll A before).Extends (Session.empty.stepAll A commands)

/-- In whatever order contexts and calculations go, also if they are freed in the name of a context
that they do not belong to, the pages of a context stay as long as they may be used, and no longer. -/
theorem stepAll_custodial (A : Arithmetic) (commands : List Command) : Custodial A commands := by
  obtain ⟨h, -⟩ := Orderly.empty.stepAll A commands
  refine ⟨?_, ?_, ?_⟩
  · intro id m pool hm hpool husers
    refine ((h.accountable id m hm).kept ?_ pool hpool).not_freed
    rw [h.inOrder.balanced.live id m hm]
    exact husers.imp_right List.length_pos_of_ne_nil
  · intro id m pool hm hpool hdropped hliving
    refine (h.accountable id m hm).returned hdropped ?_ pool hpool
    rw [h.inOrder.balanced.live id m hm, hliving, List.length_nil]
  · rintro before after rfl
    obtain ⟨hbefore, -⟩ := Orderly.empty.stepAll A before
    rw [stepAll_append]
    exact (hbefore.stepAll A after).2

/-- Two calculations have a page each. The first is dropped and then the context; the regions go when
another context is asked to free the second. -/
theorem stepAll_custodial_foreign :
    let commands : List Command :=
      [.newObserved ⟨.streamed .whole 0, ⟨16, by decide⟩, fun _ _ => false⟩ .optimized,
        .newContext ⟨.streamed .whole 0, ⟨16, by decide⟩, fun _ _ => false⟩ .soft .optimized,
        .compileItem 0 ⟨"$0", ⟨[], 1⟩⟩, .compileItem 0 ⟨"1", ⟨[], 0⟩⟩, .dropCalculation 0,
        .dropContext 0]
    let callsAfter (commands : List Command) : List (Option (List (List RegionCall))) :=
      (Session.empty.stepAll .whole commands).contexts.map fun m =>
        m.context.pool?.map fun pool => [0, 1].map (callsOn · pool.allocator.history)
    callsAfter commands = [some [[.allocate 16, .freeze 16], [.allocate 16, .freeze 16]], none] ∧
    Custodial .whole commands ∧
    callsAfter (commands ++ [.free 1 1]) =
      [some [[.allocate 16, .freeze 16, .free 16], [.allocate 16, .freeze 16, .free 16]], none] ∧
    Custodial .whole (commands ++ [.free 1 1]) :=
  ⟨rfl, stepAll_custodial _ _, rfl, stepAll_custodial _ _⟩

end Session

end Reckoner
