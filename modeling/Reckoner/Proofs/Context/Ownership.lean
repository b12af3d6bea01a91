import Mathlib.Data.List.Perm.Basic
import Reckoner.Context.Batch
import Reckoner.Proofs.Page.Progress

/-! The living calculations of a context: it counts them, and the code of the native ones has its
tenants in the pool. Between operations no page is in progress, also if a batch is taken back. -/
namespace Reckoner

def Native.Target.codeOf (t : Native.Target) (p : Native.Program) : List UInt8 :=
  match t.generate p with
  | .ok code => code
  | .error _ => []

theorem Native.Target.codeOf_eq {t : Native.Target} {p : Native.Program} {code : List UInt8}
    (h : t.generate p = .ok code) : t.codeOf p = code := by
  rw [codeOf, h]

def Calculation.tenant? (t : Native.Target) : Calculation → Option Tenant
  | native p placement => some ⟨placement, t.codeOf p⟩
  | soft _ | bytecode _ => none

theorem Calculation.page?_eq_map_tenant? (t : Native.Target) (k : Calculation) :
    k.page? = (k.tenant? t).map Tenant.page := by
  cases k <;> rfl

def tenantsOf (t : Native.Target) (living : List Calculation) : List Tenant :=
  living.filterMap (·.tenant? t)

theorem headcount_tenantsOf (t : Native.Target) (living : List Calculation) (id : Nat) :
    headcount (tenantsOf t living) id = living.countP (·.page? = some id) := by
  rw [headcount, tenantsOf, List.countP_filterMap]
  congr 1
  funext k
  rw [k.page?_eq_map_tenant? t]
  cases k.tenant? t <;> simp

theorem mem_tenantsOf_of_page? (t : Native.Target) {living : List Calculation} {k : Calculation}
    (hk : k ∈ living) {id : Nat} (hid : k.page? = some id) :
    ∃ tenant ∈ tenantsOf t living, tenant.page = id := by
  rw [k.page?_eq_map_tenant? t] at hid
  obtain ⟨tenant, htenant, hpage⟩ := Option.map_eq_some_iff.1 hid
  exact ⟨tenant, List.mem_filterMap.2 ⟨k, hk, htenant⟩, hpage⟩

namespace Context

variable {c : Context} {living old : List Calculation}

inductive Finalizing (c : Context) (pack : Bool) : Except Error Calculation × Context → Prop
  | refused (e : Error) : Finalizing c pack (.error e, c)
  | unplaced (k : Calculation) (hbackend : k.backend = c.backend) (hpage : k.page? = none) :
    Finalizing c pack (.ok k, c.adopt)
  | placed (foundry : Foundry) (hengine : c.engine = .native foundry) (p : Native.Program)
    (code : List UInt8) (hcode : foundry.target.generate p = .ok code) (placement : Placement)
    (pool : Pool) (hplace : foundry.pool.Placing code pack (.ok placement, pool)) :
    Finalizing c pack
      (.ok (.native p placement), { c with engine := .native { foundry with pool } }.adopt)
  | notPlaced (foundry : Foundry) (hengine : c.engine = .native foundry) (code : List UInt8)
    (e : Error) (pool : Pool) (hplace : foundry.pool.Placing code pack (.error e, pool)) :
    Finalizing c pack (.error e, { c with engine := .native { foundry with pool } })

theorem finalize_outcome (c : Context) (b : Builder) (pack : Bool) :
    c.Finalizing pack (c.finalize b pack) := by
  unfold finalize
  split
  next b hengine =>
    cases b.finish with
    | error e => exact .refused e
    | ok p => exact .unplaced _ (by rw [backend, hengine]; rfl) rfl
  next b hengine =>
    cases b.finish with
    | error e => exact .refused e
    | ok p => exact .unplaced _ (by rw [backend, hengine]; rfl) rfl
  next foundry b hengine =>
    cases b.finish with
    | error e => exact .refused e
    | ok p =>
      dsimp only
      cases hcode : foundry.target.generate p with
      | error reason => exact .refused _
      | ok code =>
        have hplace := foundry.pool.place_outcome code pack
        dsimp only
        cases hp : foundry.pool.place code pack with
        | mk result pool =>
          rw [hp] at hplace
          cases result with
          | ok placement => exact .placed foundry hengine p code hcode placement pool hplace
          | error e => exact .notPlaced foundry hengine code e pool hplace
  next => exact .refused _

/-- The calculations of a context that are alive, in whatever order. -/
structure Keeps (c : Context) (living : List Calculation) : Prop where
  live : c.live = living.length
  backend : ∀ k ∈ living, k.backend = c.backend
  house : ∀ foundry, c.engine = .native foundry →
    House.InOrder ⟨foundry.pool, tenantsOf foundry.target living⟩

/-- None of the calculations is on the page in progress. -/
def Aside (c : Context) (old : List Calculation) : Prop :=
  ∀ foundry, c.engine = .native foundry → ∀ id, foundry.pool.pending = some id →
    headcount (tenantsOf foundry.target old) id = 0

def Idle (c : Context) : Prop := ∀ pool, c.pool? = some pool → pool.pending = none

theorem pool?_native {foundry : Foundry} (h : c.engine = .native foundry) :
    c.pool? = some foundry.pool := by
  rw [pool?, h]

theorem pool?_eq_some_iff {pool : Pool} :
    c.pool? = some pool ↔ ∃ foundry, c.engine = .native foundry ∧ foundry.pool = pool := by
  unfold pool?
  cases c.engine <;> simp

@[simp] theorem updatePool_live (c : Context) (f : Pool → Pool) :
    (c.updatePool f).live = c.live := by
  unfold updatePool
  cases c.engine <;> rfl

@[simp] theorem updatePool_backend (c : Context) (f : Pool → Pool) :
    (c.updatePool f).backend = c.backend := by
  unfold updatePool backend
  cases h : c.engine <;> simp [h, Engine.backend]

theorem updatePool_engine {f : Pool → Pool} {foundry : Foundry} :
    (c.updatePool f).engine = .native foundry ↔
      ∃ before, c.engine = .native before ∧ foundry = { before with pool := f before.pool } := by
  unfold updatePool
  cases h : c.engine <;> simp [h, eq_comm]

theorem updatePool_pool? (c : Context) (f : Pool → Pool) :
    (c.updatePool f).pool? = c.pool?.map f := by
  unfold updatePool pool?
  cases h : c.engine <;> simp [h]

theorem Idle.aside (h : c.Idle) (old : List Calculation) : c.Aside old := by
  intro foundry hengine id hid
  rw [h _ (pool?_native hengine)] at hid
  contradiction

/-- If all living calculations stand aside nobody is on the page in progress, so there is none. -/
theorem Aside.idle (h : c.Aside living) (hkeeps : c.Keeps living) : c.Idle := by
  intro pool hpool
  obtain ⟨foundry, hengine, rfl⟩ := pool?_eq_some_iff.1 hpool
  rw [Option.eq_none_iff_forall_ne_some]
  intro id hid
  have hpos := (hkeeps.house foundry hengine).headcount_pos hid
  exact Nat.ne_of_gt hpos (h foundry hengine id hid)

theorem Keeps.perm (h : c.Keeps living) {living' : List Calculation}
    (hperm : living.Perm living') : c.Keeps living' where
  live := h.live.trans hperm.length_eq
  backend k hk := h.backend k (hperm.mem_iff.2 hk)
  house foundry hengine :=
    have house := h.house foundry hengine
    ⟨house.accounted, house.hosts.perm (hperm.filterMap _)⟩

theorem foundry_of_ofBackend {P : Platform} {b : Backend} {options : Options} {foundry : Foundry}
    (h : (ofBackend P b options).engine = .native foundry) : b = .native ∧ foundry = P.foundry := by
  cases b with
  | native => exact ⟨rfl, (Engine.native.inj h).symm⟩
  | soft => contradiction
  | bytecode => contradiction

theorem Keeps.fresh (P : Platform) (b : Backend) (options : Options) :
    (ofBackend P b options).Keeps [] where
  live := by cases b <;> rfl
  backend := by simp
  house foundry hengine := by
    obtain ⟨-, rfl⟩ := foundry_of_ofBackend hengine
    exact .empty P.pageSize.property

theorem Idle.fresh (P : Platform) (b : Backend) (options : Options) :
    (ofBackend P b options).Idle := by
  intro pool hpool
  obtain ⟨foundry, hengine, rfl⟩ := pool?_eq_some_iff.1 hpool
  rw [(foundry_of_ofBackend hengine).2]
  rfl

theorem Keeps.updatePool {f : Pool → Pool} (hlive : c.live = living.length)
    (hbackend : ∀ k ∈ living, k.backend = c.backend)
    (house : ∀ foundry, c.engine = .native foundry →
      House.InOrder ⟨f foundry.pool, tenantsOf foundry.target living⟩) :
    (c.updatePool f).Keeps living where
  live := by rw [updatePool_live, hlive]
  backend := by
    rw [updatePool_backend]
    exact hbackend
  house := by
    intro _ hengine
    obtain ⟨foundry, hbefore, rfl⟩ := updatePool_engine.1 hengine
    exact house foundry hbefore

theorem Keeps.backend_native (h : c.Keeps living) {foundry : Foundry}
    (hengine : c.engine = .native foundry) : ∀ k ∈ living, k.backend = .native := by
  intro k hk
  rw [h.backend k hk, Context.backend, hengine]
  rfl

theorem Keeps.native (foundry : Foundry) (options : Options)
    (hbackend : ∀ k ∈ living, k.backend = .native)
    (house : House.InOrder ⟨foundry.pool, tenantsOf foundry.target living⟩) :
    Keeps ⟨.native foundry, options, living.length⟩ living where
  live := rfl
  backend := hbackend
  house := by
    rintro _ ⟨⟩
    exact house

def created : Except Error Calculation → List Calculation
  | .ok k => [k]
  | .error _ => []

theorem Keeps.finalized (h : c.Keeps living) {pack : Bool}
    {outcome : Except Error Calculation × Context} (hfinalize : c.Finalizing pack outcome) :
    outcome.2.Keeps (living ++ created outcome.1) := by
  cases hfinalize with
  | refused e => rwa [created, List.append_nil]
  | unplaced k hbackend hpage =>
    refine ⟨by simp [adopt, created, h.live], ?_, ?_⟩
    · simpa [created, or_imp, forall_and] using ⟨h.backend, hbackend⟩
    · intro foundry hengine
      rw [k.page?_eq_map_tenant? foundry.target, Option.map_eq_none_iff] at hpage
      simpa [tenantsOf, created, hpage] using h.house foundry hengine
  | placed foundry hengine p code hcode placement pool hplace =>
    have house := h.house foundry hengine
    have hbackend : ∀ k ∈ living ++ [.native p placement], k.backend = .native := by
      simpa [or_imp, forall_and] using ⟨h.backend_native hengine, rfl⟩
    have htenants : tenantsOf foundry.target (living ++ [.native p placement]) =
        moveIn (tenantsOf foundry.target living) code (.ok placement) := by
      simp [tenantsOf, moveIn, Calculation.tenant?, Native.Target.codeOf_eq hcode]
    have hkeeps := Keeps.native { foundry with pool } c.options hbackend (by
      rw [htenants]
      exact ⟨house.accounted.placed hplace, house.hosts.placed house.accounted hplace⟩)
    simpa [adopt, created, h.live] using hkeeps
  | notPlaced foundry hengine code e pool hplace =>
    have house := h.house foundry hengine
    have hkeeps := Keeps.native { foundry with pool } c.options (h.backend_native hengine)
      ⟨house.accounted.placed hplace, house.hosts.placed house.accounted hplace⟩
    simpa [created, h.live] using hkeeps

theorem Finalizing.pending {pack : Bool} {outcome : Except Error Calculation × Context}
    (h : c.Finalizing pack outcome) (hkeeps : c.Keeps living) {foundry : Foundry}
    (hengine : outcome.2.engine = .native foundry) {id : Nat}
    (hid : foundry.pool.pending = some id) :
    ∃ before, c.engine = .native before ∧ foundry.target = before.target ∧
      (before.pool.pending = some id ∨
        pack = true ∧ headcount (tenantsOf before.target living) id = 0) := by
  cases h with
  | refused e => exact ⟨foundry, hengine, rfl, .inl hid⟩
  | unplaced k hbackend hpage => exact ⟨foundry, hengine, rfl, .inl hid⟩
  | placed before hbefore p code hcode placement pool hplace =>
    obtain rfl := Engine.native.inj hengine
    have house := hkeeps.house before hbefore
    exact ⟨before, hbefore, rfl, hplace.pending house.accounted house.hosts hid⟩
  | notPlaced before hbefore code e pool hplace =>
    obtain rfl := Engine.native.inj hengine
    have house := hkeeps.house before hbefore
    exact ⟨before, hbefore, rfl, hplace.pending house.accounted house.hosts hid⟩

theorem Aside.finalized {added : List Calculation} (h : c.Aside old)
    (hkeeps : c.Keeps (old ++ added)) {pack : Bool}
    {outcome : Except Error Calculation × Context} (hfinalize : c.Finalizing pack outcome) :
    outcome.2.Aside old := by
  intro foundry hengine id hid
  obtain ⟨before, hbefore, htarget, hpending⟩ := hfinalize.pending hkeeps hengine hid
  rw [htarget]
  rcases hpending with hpending | ⟨-, hempty⟩
  · exact h before hbefore id hpending
  · rw [headcount_tenantsOf, List.countP_append] at hempty
    rw [headcount_tenantsOf]
    omega

theorem Idle.finalized (h : c.Idle) (hkeeps : c.Keeps living)
    {outcome : Except Error Calculation × Context} (hfinalize : c.Finalizing false outcome) :
    outcome.2.Idle := by
  intro pool hpool
  obtain ⟨foundry, hengine, rfl⟩ := pool?_eq_some_iff.1 hpool
  rw [Option.eq_none_iff_forall_ne_some]
  intro id hid
  obtain ⟨before, hbefore, -, hpending⟩ := hfinalize.pending hkeeps hengine hid
  rw [h _ (pool?_native hbefore)] at hpending
  simp at hpending

theorem compileScoped_outcome (A : Arithmetic) (c : Context) (options : Options) (scope : Scope)
    (source : String) (pack : Bool) :
    c.Finalizing pack ((c.compileScoped A options scope source pack).result,
      (c.compileScoped A options scope source pack).context) := by
  unfold compileScoped
  cases Expr.parse A scope source with
  | error e => exact .refused e
  | ok e => exact c.finalize_outcome _ pack

theorem Keeps.discarded (h : c.Keeps living) {k : Calculation} {rest : List Calculation}
    (hperm : living.Perm (k :: rest)) : (c.discard k).Keeps rest := by
  replace h := h.perm hperm
  have hlive : c.live - 1 = rest.length := by
    rw [h.live]
    rfl
  have hbackend : ∀ k' ∈ rest, k'.backend = c.backend := fun k' hk' =>
    h.backend k' (List.mem_cons_of_mem k hk')
  unfold discard
  cases hpage : k.page? with
  | none =>
    refine ⟨hlive, hbackend, fun foundry hengine => ?_⟩
    rw [k.page?_eq_map_tenant? foundry.target, Option.map_eq_none_iff] at hpage
    have house := h.house foundry hengine
    rwa [tenantsOf, List.filterMap_cons_none hpage] at house
  | some id =>
    refine .updatePool hlive hbackend fun foundry hengine => ?_
    rw [k.page?_eq_map_tenant? foundry.target] at hpage
    obtain ⟨t, ht, rfl⟩ := Option.map_eq_some_iff.1 hpage
    have house := h.house foundry hengine
    rw [tenantsOf, List.filterMap_cons_some ht] at house
    -- The first of the tenants moves out.
    have hfirst : (t :: tenantsOf foundry.target rest)[0]? = some t := rfl
    have hrelease := foundry.pool.release_outcome t.page
    exact ⟨house.accounted.released hrelease, house.hosts.released hfirst hrelease⟩

theorem Aside.discarded (h : c.Aside old) (k : Calculation) : (c.discard k).Aside old := by
  unfold discard
  cases k.page? with
  | none => exact h
  | some page =>
    intro _ hengine id hid
    obtain ⟨foundry, hbefore, rfl⟩ := updatePool_engine.1 hengine
    exact h foundry hbefore id ((foundry.pool.release_outcome page).pending hid)

theorem Keeps.executable (h : c.Keeps living) (hidle : c.Idle) {k : Calculation} (hk : k ∈ living)
    {n : Nat} (hn : k.page? = some n) :
    ∃ pool page, c.pool? = some pool ∧ pool.pages[n]? = some page ∧
      page.protection = .executable := by
  have hbackend := h.backend k hk
  unfold Context.backend at hbackend
  cases hengine : c.engine with
  | soft => cases k <;> simp_all [Calculation.page?, Calculation.backend, Engine.backend]
  | bytecode => cases k <;> simp_all [Calculation.page?, Calculation.backend, Engine.backend]
  | native foundry =>
    obtain ⟨t, ht, rfl⟩ := mem_tenantsOf_of_page? foundry.target hk hn
    have hpool := pool?_native hengine
    have hpending : foundry.pool.pending ≠ some t.page := by simp [hidle _ hpool]
    obtain ⟨page, hpage, hprotection⟩ := (h.house foundry hengine).executable ht hpending
    exact ⟨foundry.pool, page, hpool, hpage, hprotection⟩

end Context

/-! A batch: its calculations join the old ones, whose pages are not in progress. -/

def Slot.calculation? : Slot → Option Calculation
  | compiled k => some k
  | failed _ | skipped => none

namespace Batch

variable {b : Batch} {old : List Calculation}

def compiled (slots : List Slot) : List Calculation := slots.filterMap Slot.calculation?

@[simp] theorem compiled_nil : compiled [] = [] := rfl

@[simp] theorem compiled_cons (slot : Slot) (slots : List Slot) :
    compiled (slot :: slots) = slot.calculation?.toList ++ compiled slots := by
  cases slot <;> rfl

@[simp] theorem compiled_concat (slots : List Slot) (slot : Slot) :
    compiled (slots ++ [slot]) = compiled slots ++ slot.calculation?.toList := by
  rw [compiled, List.filterMap_append]
  exact congrArg _ ((compiled_cons slot []).trans (List.append_nil _))

@[simp] theorem noteFailure_context (b : Batch) (number : Nat) :
    (b.noteFailure number).context = b.context := by
  unfold noteFailure
  split <;> rfl

@[simp] theorem noteFailure_slots (b : Batch) (number : Nat) :
    (b.noteFailure number).slots = b.slots := by
  unfold noteFailure
  split <;> rfl

@[simp] theorem push_context (b : Batch) (slot : Slot) : (b.push slot).context = b.context := rfl

@[simp] theorem push_slots (b : Batch) (slot : Slot) : (b.push slot).slots = b.slots ++ [slot] := rfl

structure InOrder (old : List Calculation) (b : Batch) : Prop where
  keeps : b.context.Keeps (old ++ compiled b.slots)
  aside : b.context.Aside old

theorem InOrder.add (h : b.InOrder old) (A : Arithmetic) (keepGoing : Bool) (item : Item) :
    (b.add A keepGoing item).InOrder old := by
  unfold Batch.add
  split
  next =>
    refine ⟨?_, h.aside⟩
    simpa [Slot.calculation?] using h.keeps
  next =>
    have houtcome := b.context.compileScoped_outcome A b.context.options item.scope item.source true
    generalize b.context.compileScoped A b.context.options item.scope item.source true = outcome
      at houtcome ⊢
    have hkeeps := h.keeps.finalized houtcome
    have haside := h.aside.finalized h.keeps houtcome
    dsimp only at hkeeps haside ⊢
    cases hresult : outcome.result with
    | ok k =>
      rw [hresult] at hkeeps
      refine ⟨?_, haside⟩
      simpa [Slot.calculation?, Context.created] using hkeeps
    | error e =>
      rw [hresult] at hkeeps
      refine ⟨?_, by simpa using haside⟩
      simpa [Slot.calculation?, Context.created] using hkeeps

theorem InOrder.addAll (h : b.InOrder old) (A : Arithmetic) (keepGoing : Bool) (items : List Item) :
    (items.foldl (Batch.add A keepGoing) b).InOrder old := by
  induction items generalizing b with
  | nil => exact h
  | cons item rest ih => exact ih (h.add A keepGoing item)

theorem retractAll (e : Error) (slots : List Slot) (hnone : compiled b.slots = [])
    (hkeeps : b.context.Keeps (old ++ compiled slots))
    (haside : b.context.Aside old) :
    compiled (slots.foldl (retract e) b).slots = [] ∧ (slots.foldl (retract e) b).InOrder old := by
  induction slots generalizing b with
  | nil =>
    refine ⟨hnone, ?_, haside⟩
    rw [List.foldl_nil, hnone]
    exact hkeeps
  | cons slot rest ih =>
    -- The slots that are still to come hold what is alive beyond the old calculations.
    refine ih ?_ ?_ ?_
    · cases slot <;> simpa [retract, Slot.calculation?] using hnone
    · cases slot with
      | compiled k =>
        have hdiscarded : (b.context.discard k).Keeps (old ++ compiled rest) :=
          hkeeps.discarded List.perm_middle
        simpa [retract] using hdiscarded
      | failed e => exact hkeeps
      | skipped => exact hkeeps
    · cases slot with
      | compiled k => simpa [retract] using haside.discarded k
      | failed e => exact haside
      | skipped => exact haside

theorem retracted {c : Context} {slots : List Slot} (hkeeps : c.Keeps (old ++ compiled slots))
    (haside : c.Aside old) (e : Error) (firstFailure : Nat) (notes : List Note) :
    (slots.foldl (retract e) ⟨[], firstFailure, c, notes⟩).context.Keeps
      (old ++ compiled (slots.foldl (retract e) ⟨[], firstFailure, c, notes⟩).slots) ∧
    (slots.foldl (retract e) ⟨[], firstFailure, c, notes⟩).context.Idle := by
  obtain ⟨hnone, hleft, haside⟩ :=
    retractAll (b := ⟨[], firstFailure, c, notes⟩) e slots rfl hkeeps haside
  refine ⟨hleft, haside.idle ?_⟩
  rwa [hnone, List.append_nil] at hleft

theorem InOrder.close (h : b.InOrder old) :
    b.close.context.Keeps (old ++ compiled b.close.slots) ∧ b.close.context.Idle := by
  unfold Batch.close
  cases hengine : b.context.engine with
  | soft => exact ⟨h.keeps, by simp [Context.Idle, Context.pool?, hengine]⟩
  | bytecode => exact ⟨h.keeps, by simp [Context.Idle, Context.pool?, hengine]⟩
  | native foundry =>
    have house := h.keeps.house foundry hengine
    have hfreeze := foundry.pool.freezePending_outcome
    have hkeeps := Context.Keeps.native { foundry with pool := foundry.pool.freezePending.2 }
      b.context.options (h.keeps.backend_native hengine)
      ⟨house.accounted.pendingFrozen hfreeze, house.hosts.pendingFrozen house.accounted hfreeze⟩
    rw [← h.keeps.live] at hkeeps
    dsimp only
    cases hf : foundry.pool.freezePending with
    | mk result pool =>
      rw [hf] at hfreeze hkeeps
      cases hfreeze with
      | idle hpending =>
        refine ⟨hkeeps, ?_⟩
        rintro _ ⟨⟩
        exact hpending
      | granted id hpending =>
        refine ⟨hkeeps, ?_⟩
        rintro _ ⟨⟩
        rfl
      | refused id hpending =>
        refine retracted hkeeps ?_ _ _ _
        rintro _ ⟨⟩
        exact h.aside foundry hengine

end Batch

/-- A batch leaves no page in progress, and no trace of what it had to take back. -/
theorem Context.Keeps.compileBatch {c : Context} {living : List Calculation} (h : c.Keeps living)
    (hidle : c.Idle) (A : Arithmetic) (keepGoing : Bool) (items : List Item) :
    (c.compileBatch A keepGoing items).context.Keeps
      (living ++ Batch.compiled (c.compileBatch A keepGoing items).slots) ∧
    (c.compileBatch A keepGoing items).context.Idle := by
  have hstart : Batch.InOrder living ⟨[], 0, c, []⟩ :=
    ⟨by rwa [Batch.compiled, List.filterMap_nil, List.append_nil], hidle.aside living⟩
  exact (hstart.addAll A keepGoing items).close

end Reckoner
