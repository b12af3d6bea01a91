import Reckoner.Error
import Reckoner.Page.Event

/-!
A pool of pages for code. Pages with users are active, pages without are free and taken again
before new memory is asked for; one active page may be in progress, still writable, to be filled
by several pieces of code. The allocator may refuse any request; each operation then reports the
refusal and says which pool is left.
-/
namespace Reckoner

inductive Protection where
  | writable
  | executable
  deriving DecidableEq, Repr

structure Page where
  length : Nat
  used : Nat
  refs : Nat
  protection : Protection
  memory : List UInt8
  deriving DecidableEq, Repr

namespace Page

def fresh (length : Nat) : Page := ⟨length, 0, 0, .writable, List.replicate length 0⟩

def write (p : Page) (offset : Nat) (code : List UInt8) : Page :=
  { p with
    used := offset + code.length
    refs := p.refs + 1
    memory := p.memory.take offset ++ code ++ p.memory.drop (offset + code.length) }

end Page

/-- The allocator behind a pool. Whether it refuses a request may depend on all that has happened
before, of which `history` is the record. -/
structure Allocator where
  pageSize : Nat
  /-- Refusals by the length of the history. -/
  refuses : Nat → Request → Bool
  history : List Page.Event

namespace Allocator

def willing (pageSize : Nat) : Allocator := ⟨pageSize, fun _ _ => false, []⟩

def setRefusal (a : Allocator) (kind : RequestKind) (refuse : Bool) : Allocator :=
  { a with refuses := fun n r => if r.kind = kind then refuse else a.refuses n r }

def record (a : Allocator) (e : Page.Event) : Allocator := { a with history := a.history ++ [e] }

end Allocator

/-- Pages are known by their number, which is also that of their region. -/
structure Pool where
  allocator : Allocator
  pages : List Page
  active : List Nat
  free : List Nat
  pending : Option Nat
  allocations : Nat

structure Placement where
  page : Nat
  offset : Nat
  deriving DecidableEq, Repr

structure PoolStats where
  active : Nat
  free : Nat
  inProgress : Bool
  allocations : Nat
  deriving DecidableEq, Repr

def alignUp (n step : Nat) : Nat := (n + step - 1) / step * step

/-- Takes the first fitting element out of a list; the last element takes its place. -/
def takeFirst (fits : Nat → Bool) : List Nat → Option (Nat × List Nat)
  | [] => none
  | x :: xs =>
    if fits x then
      some (x, match xs.getLast? with
        | some last => last :: xs.dropLast
        | none => [])
    else (takeFirst fits xs).map fun (y, rest) => (y, x :: rest)

namespace Pool

def codeAlign : Nat := 16

def empty (allocator : Allocator) : Pool := ⟨allocator, [], [], [], none, 0⟩

def stats (p : Pool) : PoolStats :=
  ⟨p.active.length, p.free.length, p.pending.isSome, p.allocations⟩

def record (p : Pool) (e : Page.Event) : Pool := { p with allocator := p.allocator.record e }

def update (p : Pool) (id : Nat) (f : Page → Page) : Pool := { p with pages := p.pages.modify id f }

def lengthOf (p : Pool) (id : Nat) : Nat :=
  match p.pages[id]? with
  | some page => page.length
  | none => 0

def request (p : Pool) (r : Request) : Except Error Unit × Pool :=
  if p.allocator.refuses p.allocator.history.length r then
    (.error (.allocation (.refused r.kind)), p.record (.refused r))
  else (.ok (), p.record (.granted r))

def freeze (p : Pool) (id : Nat) : Except Error Unit × Pool :=
  match p.request (.freeze id (p.lengthOf id)) with
  | (.ok (), p) =>
    (.ok (), (p.update id fun page => { page with protection := .executable }).record (.frozen id))
  | (.error e, p) => (.error e, p)

def renew (p : Pool) (id : Nat) : Except Error Unit × Pool :=
  match p.pages[id]? with
  | some page =>
    match page.protection with
    | .writable => (.ok (), p)
    | .executable =>
      match p.request (.renew id page.length) with
      | (.ok (), p) => (.ok (), p.update id fun page => { page with protection := .writable })
      | (.error e, p) => (.error e, p)
  | none => (.ok (), p)

/-- Makes the page in progress executable. If that is refused it stays in progress. -/
def freezePending (p : Pool) : Except Error Unit × Pool :=
  match p.pending with
  | none => (.ok (), p)
  | some id =>
    match p.freeze id with
    | (.ok (), p) => (.ok (), { p with pending := none })
    | (.error e, p) => (.error e, p)

/-- A writable page without users for `need` bytes: the first free one that is long enough, or a
new one. -/
def acquire (p : Pool) (need : Nat) : Except Error Nat × Pool :=
  let length := alignUp (max need 1) p.allocator.pageSize
  match takeFirst (fun id => length ≤ p.lengthOf id) p.free with
  | some (id, rest) =>
    match p.renew id with
    | (.ok (), p) => (.ok id, { p with free := rest }.record (.reused id (p.lengthOf id)))
    | (.error e, p) => (.error e, p)
  | none =>
    match p.request (.allocate length) with
    | (.ok (), p) =>
      let id := p.pages.length
      (.ok id, { p with pages := p.pages ++ [Page.fresh length], allocations := p.allocations + 1 }.record
        (.opened id length))
    | (.error e, p) => (.error e, p)

def write (p : Pool) (id offset : Nat) (code : List UInt8) : Pool :=
  (p.update id fun page => page.write offset code).record (.wrote id offset code.length)

def activate (p : Pool) (id : Nat) : Pool := { p with active := p.active.insert id }

def giveBack (p : Pool) (id : Nat) : Pool :=
  { p.update id fun page => { page with refs := page.refs - 1, used := 0 } with
    free := p.free ++ [id] }

/-- Places code in a page of its own choice: in progress if it is to be packed with other code, and
executable at once if not. -/
def placeAnew (p : Pool) (code : List UInt8) (pack : Bool) : Except Error Placement × Pool :=
  match p.acquire code.length with
  | (.error e, p) => (.error e, p)
  | (.ok id, p) =>
    let p := p.write id 0 code
    if pack then (.ok ⟨id, 0⟩, { p with pending := some id }.activate id)
    else
      match p.freeze id with
      | (.ok (), p) => (.ok ⟨id, 0⟩, p.activate id)
      | (.error e, p) => (.error e, p.giveBack id)

/-- Places code for one user. Packed code joins the page in progress if there is room for it; a page
that is full is made executable first. -/
def place (p : Pool) (code : List UInt8) (pack : Bool) : Except Error Placement × Pool :=
  match if pack then p.pending else none with
  | none => p.placeAnew code pack
  | some id =>
    let used := match p.pages[id]? with
      | some page => page.used
      | none => 0
    let offset := alignUp used codeAlign
    if offset + code.length ≤ p.lengthOf id then
      (.ok ⟨id, offset⟩, (p.record (.packed id offset code.length)).write id offset code)
    else
      match p.freezePending with
      | (.ok (), p) => p.placeAnew code pack
      | (.error e, p) => (.error e, p)

def vacate (p : Pool) (id : Nat) : Pool :=
  let p := { p.update id fun page => { page with used := 0 } with
    pending := if p.pending = some id then none else p.pending }
  if id ∈ p.active then
    { p with active := p.active.erase id, free := p.free ++ [id] }.record (.vacated id)
  else p

def release (p : Pool) (id : Nat) : Pool :=
  match p.pages[id]? with
  | none => p
  | some page =>
    let p := p.update id fun page => { page with refs := page.refs - 1 }
    if 0 < page.refs - 1 then p else p.vacate id

def close (p : Pool) : Pool :=
  let freed := p.pages.zipIdx.map fun (page, id) => Page.Event.freed id page.length
  { p with
    allocator := freed.foldl Allocator.record p.allocator
    pages := []
    active := []
    free := []
    pending := none }

def setRefusal (p : Pool) (kind : RequestKind) (refuse : Bool) : Pool :=
  { p with allocator := p.allocator.setRefusal kind refuse }

def eventsSince (p before : Pool) : List Page.Event :=
  p.allocator.history.drop before.allocator.history.length

def peek (p : Pool) (start : Placement) (length : Nat) : List UInt8 :=
  match p.pages[start.page]? with
  | some page => (page.memory.drop start.offset).take length
  | none => []

/-- The memory from a place to the end of its page; where code cannot be run from there is none. -/
def codeAt (p : Pool) (entry : Placement) : List UInt8 :=
  match p.pages[entry.page]? with
  | some page => if page.protection = .executable then page.memory.drop entry.offset else []
  | none => []

def describe (p : Pool) : String :=
  let s := p.stats
  s!"PagePool \x7b pages: {p.pages.length}, stats: PageStats \x7b active: {s.active}, free: {s.free}, " ++
    s!"in_progress: {s.inProgress}, os_allocations: {s.allocations} \x7d \x7d"

end Pool

end Reckoner
