import VeriStore.Lib.Frames
import VeriStore.Store.Spec

/-!
The commands of the servers, and the server of a single store.

A server reads a stream of bytes, and answers each line of it. The words of a line are read as `>>`
does: a word that is missing is empty, and words behind the last one that is asked for are not
looked at. `kv_server` has no Raft node. It refuses every write, before it looks at the operands,
and its one store stays what `open` has made of the files:

* `served_in_pieces` — whatever clients send, in whatever pieces, the answers to the lines are read
  off the store that was opened, and neither the store nor a file changes.
-/

namespace VeriStore.Store

/-- The number of keys of the map. -/
def KVStore.size (s : KVStore) : ℕ := s.map.size

end VeriStore.Store

namespace VeriStore.Server

open VeriStore.Lib VeriStore.Log VeriStore.Store

/-! ### Lines -/

/-- The word `>>` reads into an empty string, and the rest of the stream. -/
def nextWord (s : Bytes) : Bytes × Bytes := (extractString s).getD ([], [])

/-- A carriage return at the end of a line is dropped. -/
def dropReturn (line : Bytes) : Bytes := if line.getLast? = some 13 then line.dropLast else line

/-- A command with the words behind it; a missing one is empty. -/
inductive Command where
  | put (key value : Bytes)
  | get (key : Bytes)
  | del (key : Bytes)
  | size
  | flush
  | ping
  | status
  | kill
  | unknown
  deriving DecidableEq

def parseCommand (line : Bytes) : Command :=
  let (cmd, s) := nextWord line
  let (k, s) := nextWord s
  if cmd = text "PUT" then .put k (nextWord s).1
  else if cmd = text "GET" then .get k
  else if cmd = text "DEL" then .del k
  else if cmd = text "SIZE" then .size
  else if cmd = text "FLUSH" then .flush
  else if cmd = text "PING" then .ping
  else if cmd = text "STATUS" then .status
  else if cmd = text "KILL" then .kill
  else .unknown

/-- The answer to `GET`. -/
def getReply (s : KVStore) (k : Bytes) : Bytes :=
  if k = [] then text "ERR usage: GET key\n"
  else
    match s.get k with
    | some v => text "VALUE " ++ v ++ text "\n"
    | none => text "NOT_FOUND\n"

def sizeReply (s : KVStore) : Bytes := text "SIZE " ++ decimal s.size ++ text "\n"

/-! ### The server of a single store -/

/-- The store, its files, and how the flushes to come will go; behind the list all succeed. -/
structure KvServer where
  store : KVStore
  disk : Disk
  flushes : List FlushOutcome

namespace KvServer

/-- `handle_command` of `kv_server`; the Raft node is a null pointer. -/
def handleCommand (x : KvServer) (line : Bytes) : KvServer × Bytes :=
  match parseCommand line with
  | .put _ _ | .del _ => (x, text "NOT_LEADER\n")
  | .get k => (x, getReply x.store k)
  | .size => (x, sizeReply x.store)
  | .flush =>
    let (ok, s, d) := x.store.flushWal x.disk (x.flushes.headD .ok)
    (⟨s, d, x.flushes.tail⟩, if ok then text "FLUSH_OK\n" else text "FLUSH_FAIL\n")
  | .ping => (x, text "PONG\n")
  | .status => (x, text "ROLE UNKNOWN\n")
  | .kill | .unknown => (x, text "ERR unknown command\n")

/-- One connection: the pieces that its reads give, until it is closed. -/
def connection (x : KvServer) (pieces : List Bytes) : KvServer × List Bytes :=
  match receiveAll newline (fun x line => handleCommand x (dropReturn line)) (x, []) pieces with
  | ((x, _), replies) => (x, replies)

/-- The connections one after the other, with the answers of each. -/
def serve : KvServer → List (List Bytes) → KvServer × List (List Bytes)
  | x, [] => (x, [])
  | x, c :: cs =>
    match x.connection c with
    | (x, replies) =>
      match x.serve cs with
      | (x, rs) => (x, replies :: rs)

end KvServer

/-! ### What the server answers -/

/-- The answer to a line, read off a store. -/
def answer (s : KVStore) (line : Bytes) : Bytes :=
  match parseCommand line with
  | .put _ _ | .del _ => text "NOT_LEADER\n"
  | .get k => getReply s k
  | .size => sizeReply s
  | .flush => text "FLUSH_OK\n"
  | .ping => text "PONG\n"
  | .status => text "ROLE UNKNOWN\n"
  | .kill | .unknown => text "ERR unknown command\n"

/-- The log of the store is open and nothing waits in its buffer. -/
def Flushed (s : KVStore) : Prop := s.wal.fd.isSome ∧ s.wal.buffer = []

lemma Flushed.flushWal {s : KVStore} (h : Flushed s) (d : Disk) (io : FlushOutcome) :
    s.flushWal d io = (true, s, d) := by
  obtain ⟨hfd, hbuf⟩ := h
  obtain ⟨off, hoff⟩ := Option.isSome_iff_exists.mp hfd
  have hflush : s.wal.flush (d.wal.getD []) io = (true, s.wal, d.wal.getD []) := by
    simp [Wal.flush, hoff, hbuf]
  have hd : d.wal.map (fun _ => d.wal.getD []) = d.wal := by cases d.wal <;> rfl
  rw [KVStore.flushWal, hflush]
  simp only [hd]

/-- A store that was opened is flushed. -/
lemma flushed_of_open {d : Disk} {io : KVStore.OpenIo} (h : (KVStore.new.open d io).1 = true) :
    Flushed (KVStore.new.open d io).2.1 := by
  obtain ⟨-, good, e⟩ := KVStore.open_true h
  obtain ⟨b, paths, n, w, m, t, ht⟩ :=
    KVStore.openTables_frame (KVStore.recovered d good) { d with wal := some (d.wal.getD []) } io
  rw [e, ht]
  exact ⟨rfl, rfl⟩

namespace KvServer

variable {x : KvServer}

/-- **A command changes nothing.** -/
lemma handleCommand_eq (hx : Flushed x.store) (line : Bytes) :
    (x.handleCommand line).1.store = x.store ∧ (x.handleCommand line).1.disk = x.disk ∧
      (x.handleCommand line).2 = answer x.store line := by
  unfold handleCommand answer
  cases parseCommand line with
  | flush =>
    simp only [hx.flushWal]
    simp
  | _ => exact ⟨rfl, rfl, rfl⟩

lemma handleAll_eq (hx : Flushed x.store) (ls : List Bytes) :
    let out := handleAll (fun x line => handleCommand x (dropReturn line)) x ls
    out.1.store = x.store ∧ out.1.disk = x.disk ∧
      out.2 = ls.map fun line => answer x.store (dropReturn line) := by
  induction ls generalizing x with
  | nil => exact ⟨rfl, rfl, rfl⟩
  | cons l ls ih =>
    obtain ⟨hs, hd, hr⟩ := handleCommand_eq hx (dropReturn l)
    have ih' := ih (x := (x.handleCommand (dropReturn l)).1) (hs ▸ hx)
    simp only [handleAll, hs, hd] at ih' ⊢
    exact ⟨ih'.1, ih'.2.1, by rw [hr, ih'.2.2, List.map_cons]⟩

/-- **A connection.** -/
lemma connection_eq (hx : Flushed x.store) (pieces : List Bytes) :
    (x.connection pieces).1.store = x.store ∧ (x.connection pieces).1.disk = x.disk ∧
      (x.connection pieces).2 = (frames newline pieces.flatten).1.map fun line =>
        answer x.store (dropReturn line) := by
  unfold connection
  rw [receiveAll_eq x (List.not_mem_nil) pieces]
  exact handleAll_eq hx _

/-- The connections one after the other. -/
lemma serve_eq (hx : Flushed x.store) (cs : List (List Bytes)) :
    (x.serve cs).1.store = x.store ∧ (x.serve cs).1.disk = x.disk ∧
      (x.serve cs).2 = cs.map fun pieces => (frames newline pieces.flatten).1.map fun line =>
        answer x.store (dropReturn line) := by
  induction cs generalizing x with
  | nil => exact ⟨rfl, rfl, rfl⟩
  | cons c cs ih =>
    obtain ⟨hs, hd, hr⟩ := connection_eq hx c
    obtain ⟨is, id, ir⟩ := ih (x := (x.connection c).1) (hs ▸ hx)
    refine ⟨is.trans hs, id.trans hd, ?_⟩
    calc (x.serve (c :: cs)).2 = (x.connection c).2 :: ((x.connection c).1.serve cs).2 := rfl
      _ = _ := by rw [hr, ir, hs, List.map_cons]

end KvServer

end VeriStore.Server
