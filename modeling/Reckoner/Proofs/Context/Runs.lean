import Reckoner.Context.Batch
import Reckoner.Page.Action
import Reckoner.Proofs.Context.Ownership

/-! Whatever a context does, its pool only sees actions: code is placed, the page in progress is
frozen, and pages are released. -/
namespace Reckoner

theorem Pool.actAll_append (p : Pool) (actions rest : List Action) :
    p.actAll (actions ++ rest) = (p.actAll actions).actAll rest :=
  List.foldl_append

namespace Context

variable {c c' c'' : Context}

/-- The second context has the pool of the first after some actions. -/
def Runs (c c' : Context) : Prop :=
  ∃ actions : List Pool.Action, c'.pool? = c.pool?.map (·.actAll actions)

theorem Runs.of_eq (h : c'.pool? = c.pool?) : c.Runs c' :=
  ⟨[], h.trans Option.map_id'.symm⟩

theorem Runs.trans (h : c.Runs c') (hrest : c'.Runs c'') : c.Runs c'' := by
  obtain ⟨actions, hactions⟩ := h
  obtain ⟨rest, hrest⟩ := hrest
  refine ⟨actions ++ rest, ?_⟩
  rw [hrest, hactions, Option.map_map]
  congr 1
  funext p
  exact (p.actAll_append actions rest).symm

theorem Runs.act {foundry : Foundry} (hengine : c.engine = .native foundry) (action : Pool.Action)
    (hpool : c'.pool? = some (foundry.pool.act action)) : c.Runs c' :=
  ⟨[action], by rw [hpool, pool?_native hengine]; rfl⟩

theorem finalize_runs (c : Context) (b : Builder) (pack : Bool) : c.Runs (c.finalize b pack).2 := by
  unfold finalize
  split
  next b hengine => cases b.finish <;> exact .of_eq rfl
  next b hengine => cases b.finish <;> exact .of_eq rfl
  next foundry b hengine =>
    cases b.finish with
    | error e => exact .of_eq rfl
    | ok p =>
      dsimp only
      cases foundry.target.generate p with
      | error reason => exact .of_eq rfl
      | ok code =>
        refine .act hengine (.place code pack) ?_
        rw [Pool.act]
        dsimp only
        cases foundry.pool.place code pack with
        | mk result pool => cases result <;> rfl
  next => exact .of_eq rfl

theorem compileScoped_runs (A : Arithmetic) (c : Context) (options : Options) (scope : Scope)
    (source : String) (pack : Bool) :
    c.Runs (c.compileScoped A options scope source pack).context := by
  unfold compileScoped
  cases Expr.parse A scope source with
  | error e => exact .of_eq rfl
  | ok e => exact c.finalize_runs _ pack

theorem discard_runs (c : Context) (k : Calculation) : c.Runs (c.discard k) := by
  unfold discard
  cases k.page? with
  | none => exact .of_eq rfl
  | some page => exact ⟨[.release page], updatePool_pool? _ _⟩

end Context

namespace Batch

theorem add_runs (A : Arithmetic) (keepGoing : Bool) (b : Batch) (item : Item) :
    b.context.Runs (b.add A keepGoing item).context := by
  have hcompile := b.context.compileScoped_runs A b.context.options item.scope item.source true
  unfold add
  split
  next => exact .of_eq rfl
  next =>
    dsimp only
    split
    next => exact hcompile
    next => simpa using hcompile

theorem retract_runs (e : Error) (b : Batch) (slot : Slot) :
    b.context.Runs (b.retract e slot).context := by
  cases slot with
  | compiled k => simpa [retract] using b.context.discard_runs k
  | failed e => exact .of_eq rfl
  | skipped => exact .of_eq rfl

theorem foldl_runs {α : Type} {f : Batch → α → Batch}
    (hf : ∀ (b : Batch) (x : α), b.context.Runs (f b x).context) (b : Batch) (xs : List α) :
    b.context.Runs (xs.foldl f b).context := by
  induction xs generalizing b with
  | nil => exact .of_eq rfl
  | cons x rest ih => exact (hf b x).trans (ih (f b x))

theorem close_runs (b : Batch) : b.context.Runs b.close.context := by
  unfold close
  split
  next => exact .of_eq rfl
  next => exact .of_eq rfl
  next foundry hengine =>
    have hfreeze (pool : Pool) (hpool : foundry.pool.freezePending.2 = pool) :
        b.context.Runs { b.context with engine := .native { foundry with pool } } :=
      .act hengine .freezePending (congrArg some hpool.symm)
    split
    next pool hpool => exact hfreeze pool (congrArg Prod.snd hpool)
    next e pool hpool =>
      exact (hfreeze pool (congrArg Prod.snd hpool)).trans (foldl_runs (retract_runs e) _ _)

end Batch

theorem Context.compileBatch_runs (A : Arithmetic) (c : Context) (keepGoing : Bool)
    (items : List Item) : c.Runs (c.compileBatch A keepGoing items).context :=
  (Batch.foldl_runs (Batch.add_runs A keepGoing) ⟨[], 0, c, []⟩ items).trans (Batch.close_runs _)

end Reckoner
