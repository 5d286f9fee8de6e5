/-
`mysql_pool` (inc/chat_server/mysql_dao.h; inc/gateserver and
inc/status_server have the same) and the calls of the MySQL driver the DAO
methods make. The pool is a queue of pointers, and a method keeps the one it
has taken in a local variable `con`.

The database is the list of what was committed, in the portions it was
committed in. A connection holds the writes it has made and not committed.
What the driver answers to each call, an exception included, is an input.
-/
import Learncc.Lib.Command
import Mathlib.Data.List.Basic
import Mathlib.Algebra.Ring.Int.Defs
import Mathlib.Logic.Function.Basic

namespace Learncc.Mysql

/-- What a statement that writes asks for. -/
inductive Write
  | regUser (name email pwd : String)
  | testProcedure (email : String)
  | updatePwd (name newpwd : String)
  | authApply (fromUid toUid : ℤ)
  | addApply (fromUid toUid : ℤ)
  | addFriend (selfId friendId : ℤ) (back : String)
deriving Repr, DecidableEq

/-- A write, and the number of the DAO call that made it. -/
structure Entry where
  call : ℕ
  write : Write
deriving Repr, DecidableEq

structure Conn where
  autocommit : Bool
  pending : List Entry
  lastOperTime : ℤ
deriving Repr, DecidableEq

/-- What a call of the driver answers: a number and a text, of which the caller
takes what it wants. -/
structure Reply where
  num : ℤ
  text : String
deriving Repr, DecidableEq

/-- `con` belongs to the method that runs, and `call` is its number. `sql` and
`tx` are the answers to come, those to `commit` and `rollback` apart. -/
structure World where
  pool : List (Option ℕ)
  conns : ℕ → Conn
  batches : List (List Entry)
  con : Option ℕ
  call : ℕ
  sql : ℕ → Option Reply
  asked : ℕ
  tx : ℕ → Bool
  txAsked : ℕ

structure SQLException where
deriving Repr, DecidableEq

abbrev Dao (α : Type) : Type := Command World SQLException α

namespace World

/-- The entry goes to the database, or waits for the commit. -/
def write (w : World) (c : ℕ) (write : Write) : World :=
  let entry : Entry := ⟨w.call, write⟩
  if (w.conns c).autocommit then { w with batches := w.batches ++ [[entry]] }
  else
    { w with conns := Function.update w.conns c { w.conns c with pending := (w.conns c).pending ++ [entry] } }

def beginTransaction (w : World) (c : ℕ) : World :=
  { w with conns := Function.update w.conns c { w.conns c with autocommit := false } }

def commit (w : World) (c : ℕ) : World :=
  { w with
    batches := w.batches ++ [(w.conns c).pending]
    conns := Function.update w.conns c { w.conns c with pending := [] } }

def rollback (w : World) (c : ℕ) : World :=
  { w with conns := Function.update w.conns c { w.conns c with pending := [] } }

/-- `pool_->return_conn(std::move(con))`. -/
def returnConn (w : World) : World := { w with pool := w.pool ++ [w.con], con := none }

end World

/-! ## The driver -/

/-- Any call of the driver through `con`. Through a null pointer nothing is
known. -/
def ask : Dao Reply := fun w =>
  match w.con with
  | none => none
  | some _ =>
    match w.sql w.asked with
    | none => some (.error ⟨⟩, { w with asked := w.asked + 1 })
    | some reply => some (.ok reply, { w with asked := w.asked + 1 })

/-- A call of the driver that ends a transaction: if it succeeds, `f` has been
done to the connection. -/
def askTx (f : World → ℕ → World) : Dao Unit := fun w =>
  match w.con with
  | none => none
  | some c =>
    let w := { w with txAsked := w.txAsked + 1 }
    if w.tx (w.txAsked - 1) then some (.ok (), f w c) else some (.error ⟨⟩, w)

/-- What a statement has done to the connection. -/
def onCon (f : World → ℕ → World) : Dao Unit := Command.modify fun w => w.con.elim w (f w)

def prepareStatement (_sql : String) : Dao Unit := do
  let _ ← ask
  return ()

def setString (_index : ℕ) (_value : String) : Dao Unit := do
  let _ ← ask
  return ()

def setInt (_index : ℕ) (_value : ℤ) : Dao Unit := do
  let _ ← ask
  return ()

def createStatement : Dao Unit := do
  let _ ← ask
  return ()

/-- The number of rows in the result. -/
def executeQuery : Dao ℕ := do
  let reply ← ask
  return reply.num.toNat

/-- Whether there is a row, of `rows` not read yet. -/
def next (rows : ℕ) : Dao Bool := do
  let _ ← ask
  return 0 < rows

def getString (_column : String) : Dao String := do
  let reply ← ask
  return reply.text

def getInt (_column : String) : Dao ℤ := do
  let reply ← ask
  return reply.num

/-- The number of rows changed. -/
def executeUpdate (write : Write) : Dao ℕ := do
  let reply ← ask
  onCon fun w c => w.write c write
  return reply.num.toNat

/-- `setAutoCommit(false)`. -/
def setAutoCommitFalse : Dao Unit := do
  let _ ← ask
  onCon World.beginTransaction

def commit : Dao Unit := askTx World.commit

def rollback : Dao Unit := askTx World.rollback

/-! ## The pool -/

/-- `get_conn` before the pool is closed. On an empty pool it waits for a
connection that nobody returns. -/
def getConn : Dao Unit := fun w =>
  match w.pool with
  | [] => none
  | c :: rest => some (.ok (), { w with pool := rest, con := c })

def returnConn : Dao Unit := Command.modify World.returnConn

/-- `Defer defer([this, &con]() { pool_->return_conn(std::move(con)); })` before
the rest of a block. -/
def deferReturn {α : Type} (block : Dao α) : Dao α := block.ensure World.returnConn

/-- The beginning of every method: a connection is taken, and a null pointer is
answered at once. -/
def withConn {α : Type} (ifNull : α) (rest : Dao α) : Dao α := do
  getConn
  let null ← (fun w => some (.ok w.con.isNone, w) : Dao Bool)
  if null then return ifNull else rest

/-- A method has a `con` of its own. What it still holds in the end is
destroyed. -/
def method {α : Type} (body : Dao α) : Dao α := fun w =>
  (body { w with con := none }).map fun p => (p.1, { p.2 with con := w.con })

/-- What `check_connection` does about one connection: nothing if it was used
less than five seconds ago, and a new connection if it is not `alive`. -/
def checked (conn : Conn) (timestamp : ℤ) (alive : Bool) : Conn :=
  if timestamp - conn.lastOperTime < 5 then conn
  else if alive then { conn with lastOperTime := timestamp }
  else { autocommit := true, pending := [], lastOperTime := timestamp }

/-- `check_connection` for the first `n` of the queue. A new connection can be
made. -/
def checkConnection (timestamp : ℤ) (alive : ℕ → Bool) : ℕ → World → Option World
  | 0, w => some w
  | n + 1, w =>
    match w.pool with
    | some c :: rest =>
      checkConnection timestamp alive n
        { w with
          pool := rest ++ [some c]
          conns := Function.update w.conns c (checked (w.conns c) timestamp (alive n)) }
    | _ => none

end Learncc.Mysql
