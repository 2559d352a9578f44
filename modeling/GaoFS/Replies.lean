import Mathlib.Data.List.Basic

namespace GaoFS.Replies

def ENOENT : Int32 := 2
def EIO : Int32 := 5
def EBUSY : Int32 := 16
def EEXIST : Int32 := 17

/-- What a call of a handler into the backends can throw. -/
inductive Failure where
  | notFoundException
  | existsException
  | dbException
  | chunkStorageException (code : Int32)
  | stdException
  deriving DecidableEq

def createErr {α : Type*} : Except Failure α → Int32
  | .ok _ => 0
  | .error .existsException => EEXIST
  | .error _ => -1

/-- `rpc_srv_stat` sends no error for an exception other than not-found: the
reply keeps the 0 of its initialisation. -/
def statErr {α : Type*} : Except Failure α → Int32
  | .ok _ => 0
  | .error .notFoundException => ENOENT
  | .error _ => 0

def decrSizeErr {α : Type*} : Except Failure α → Int32
  | .ok _ => 0
  | .error _ => EIO

/-- The three database exceptions share a base class, which is what
`rpc_srv_remove_metadata` and `rpc_srv_remove_data` catch. -/
def removeErr {α : Type*} : Except Failure α → Int32
  | .ok _ => 0
  | .error (.chunkStorageException code) => code
  | .error .stdException => EBUSY
  | .error _ => EIO

theorem removeErr_ok {α : Type*} (a : α) : removeErr (.ok a) = 0 := rfl

/-- The same clauses in the two handlers that get and update the size. -/
def sizeErr {α : Type*} : Except Failure α → Int32
  | .ok _ => 0
  | .error .notFoundException => ENOENT
  | .error _ => EBUSY

structure SizeOut where
  err : Int32
  retSize : Int64
  deriving DecidableEq

/-- `rpc_srv_update_metadentry_size` replies the end of the written range and
not the size that the record has afterwards. -/
def updateMetadentrySizeOut (done : Except Failure Unit) (size : UInt64) (offset : Int64) : SizeOut where
  err := sizeErr done
  retSize := if done.isOk then (offset.toUInt64 + size).toInt64 else 0

def getMetadentrySizeOut (size : Except Failure UInt64) : SizeOut where
  err := sizeErr size
  retSize := match size with
    | .ok s => s.toInt64
    | .error _ => 0

end GaoFS.Replies
