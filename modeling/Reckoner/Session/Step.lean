import Reckoner.Session.Basic

/-!
The operations of a session, as commands with their answers. A command that names something that is
not there changes nothing; the context that a command names is looked up first.
-/
namespace Reckoner

inductive Command where
  | newContext (platform : Platform) (backend : Backend) (options : Options)
  | newObserved (platform : Platform) (options : Options)
  | setOptions (context : Nat) (options : Options)
  | status (context : Nat)
  /-- With the given options, or with those of the context. -/
  | compile (context : Nat) (names : List String) (source : String) (options : Option Options)
  | compileItem (context : Nat) (item : Item)
  | compileBatch (context : Nat) (keepGoing : Bool) (items : List Item)
  | calculate (calculation : Nat) (args : List Single)
  | calculateUnchecked (calculation : Nat) (args : List Single)
  | describe (calculation : Nat)
  /-- Ends a calculation in the name of a context, which should be its own. -/
  | free (context calculation : Nat)
  | dropCalculation (calculation : Nat)
  | dropContext (context : Nat)
  | load (stream : Stream)
  | newBuilder (context : Nat)
  | build (builder : Nat) (calls : List Call)
  | finalize (context builder : Nat)
  | abandon (context builder : Nat)
  | setRefusal (context : Nat) (kind : RequestKind) (refuse : Bool)
  | allocatorCalls (context : Nat)

inductive Missing where
  | context
  | calculation
  | builder
  deriving DecidableEq, Repr

inductive Entry where
  | compiled (id : Nat) (calculation : Calculation)
  | failed (error : Error)
  | skipped
  deriving DecidableEq, Repr

inductive Answer where
  | missing (what : Missing)
  | failed (error : Error)
  | done
  | context (id : Nat) (backend : Backend) (options : Options)
  | options (options : Options)
  | status (backend : Backend) (options : Options) (live : Nat) (pages : Option PoolStats)
  | created (id : Nat) (calculation : Calculation)
  | calculation (calculation : Calculation)
  | value (result : Except Error Single)
  | batch (firstFailure : Nat) (entries : List Entry)
  | builder (id : Nat) (backend : Backend) (depth : Nat)
  | built (depths : List Nat) (summary : String)
  | calls (events : List Page.Event)

structure Reply where
  answer : Answer
  session : Session
  notes : List Note

namespace Session

def reply (s : Session) (answer : Answer) : Reply := ⟨answer, s, []⟩

def keep (s : Session) (owner : Nat) (outcome : Context.Outcome) : Reply :=
  let s := s.setContext owner outcome.context
  match outcome.result with
  | .ok c =>
    ⟨.created s.calculations.length c, s.addCalculation c (some owner), outcome.notes⟩
  | .error e => ⟨.failed e, s, outcome.notes⟩

def keepSlots (owner : Nat) : Session → List Slot → List Entry × Session
  | s, [] => ([], s)
  | s, .compiled c :: rest =>
    let (entries, after) := keepSlots owner (s.addCalculation c (some owner)) rest
    (.compiled s.calculations.length c :: entries, after)
  | s, .failed e :: rest =>
    let (entries, after) := keepSlots owner s rest
    (.failed e :: entries, after)
  | s, .skipped :: rest =>
    let (entries, after) := keepSlots owner s rest
    (.skipped :: entries, after)

def withContext (s : Session) (id : Nat) (f : Context → Reply) : Reply :=
  match s.context? id with
  | some c => f c
  | none => s.reply (.missing .context)

def withCalculation (s : Session) (id : Nat) (f : Held → Reply) : Reply :=
  match s.calculation? id with
  | some h => f h
  | none => s.reply (.missing .calculation)

def withBuilder (s : Session) (id : Nat) (f : Builder → Reply) : Reply :=
  match s.builder? id with
  | some b => f b
  | none => s.reply (.missing .builder)

def buildAll : Builder → List Call → List Nat × Builder
  | b, [] => ([], b)
  | b, c :: rest =>
    let b := b.call c
    let (depths, after) := buildAll b rest
    (b.depth :: depths, after)

def step (A : Arithmetic) (s : Session) : Command → Reply
  | .newContext platform backend options =>
    ⟨.context s.contexts.length backend options,
      s.addContext (.ofBackend platform backend options) false, []⟩
  | .newObserved platform options =>
    ⟨.context s.contexts.length .native options,
      s.addContext (.ofBackend platform .native options) true, []⟩
  | .setOptions id options =>
    s.withContext id fun c => ⟨.options options, s.setContext id { c with options }, []⟩
  | .status id =>
    s.withContext id fun c => s.reply (.status c.backend c.options c.live (c.pool?.map Pool.stats))
  | .compile id names source options =>
    s.withContext id fun c =>
      s.keep id (c.compileScoped A (options.getD c.options) (.ofNames names) source false)
  | .compileItem id item => s.withContext id fun c => s.keep id (c.compileItem A item)
  | .compileBatch id keepGoing items =>
    s.withContext id fun c =>
      let batch := c.compileBatch A keepGoing items
      let (entries, s) := keepSlots id (s.setContext id batch.context) batch.slots
      ⟨.batch batch.firstFailure entries, s, batch.notes⟩
  | .calculate id args =>
    s.withCalculation id fun h => s.reply (.value (h.calculation.calculate A (s.call h) args))
  | .calculateUnchecked id args =>
    s.withCalculation id fun h =>
      s.reply (.value (.ok (h.calculation.calculateUnchecked A (s.call h) args)))
  | .describe id => s.withCalculation id fun h => s.reply (.calculation h.calculation)
  | .free owner id =>
    s.withContext owner fun _ =>
      s.withCalculation id fun h =>
        ⟨if h.owner = some owner then .done else .failed .foreignCalculation, s.discard id h, []⟩
  | .dropCalculation id => s.withCalculation id fun h => ⟨.done, s.discard id h, []⟩
  | .dropContext id =>
    s.withContext id fun c =>
      ⟨.done, s.dropContext id, if 0 < c.live then [.droppedLive c.live] else []⟩
  | .load stream =>
    match Calculation.ofStream stream with
    | .ok c => ⟨.created s.calculations.length c, s.addCalculation c none, []⟩
    | .error e => s.reply (.failed e)
  | .newBuilder id =>
    s.withContext id fun c =>
      let b := Builder.empty c.backend
      ⟨.builder s.builders.length b.backend b.depth, s.addBuilder b, []⟩
  | .build id calls =>
    s.withBuilder id fun b =>
      let (depths, b) := buildAll b calls
      ⟨.built depths b.describe, s.setBuilder id (some b), []⟩
  | .finalize owner id =>
    s.withContext owner fun c =>
      s.withBuilder id fun b =>
        let (result, c) := c.finalize b false
        (s.setBuilder id none).keep owner ⟨result, c, []⟩
  | .abandon owner id =>
    s.withContext owner fun _ =>
      s.withBuilder id fun b =>
        ⟨.done, s.setBuilder id none, [.abandoned b.backend b.depth]⟩
  | .setRefusal id kind refuse =>
    match s.observed? id with
    | none => s.reply (.missing .context)
    | some m =>
      ⟨.done, s.setContext id (m.context.updatePool (·.setRefusal kind refuse)), []⟩
  | .allocatorCalls id =>
    match s.observed? id with
    | none => s.reply (.missing .context)
    | some m =>
      let history := match m.context.pool? with
        | some p => p.allocator.history
        | none => []
      ⟨.calls ((history.drop m.seen).filter Page.Event.isCall),
        { s with contexts := s.contexts.modify id fun m => { m with seen := history.length } }, []⟩

end Session

end Reckoner
