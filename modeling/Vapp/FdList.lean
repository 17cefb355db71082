import Mathlib.Logic.Function.Basic
import Mathlib.Data.List.FinRange

/-! # The descriptor list of a process

`fd_list.c`: ten slots for descriptors to be read from, each with the function that
handles it.
-/
namespace Vapp

/-- `FD_LIST_SIZE`. -/
def fdListSize : Nat := 10

/-- The functions that are registered for a descriptor. -/
inductive FdHandler where
  | acceptSockServer
  | receiveSockServer
  | kickServer
  | kickClient
  deriving DecidableEq, Repr

/-- `struct fd_node`.  The context of a node is the process it belongs to. -/
structure FdNode where
  fd : Int
  handler : Option FdHandler
  deriving DecidableEq, Repr

/-- `reset_fd_node`. -/
def resetFdNode : FdNode := ⟨-1, none⟩

/-- The array `read_fds` of an `FdList`. -/
abbrev FdList := Fin fdListSize → FdNode

/-- `init_fd_list`. -/
def initFdList : FdList := fun _ => resetFdNode

namespace FdList

/-- `find_fd_node`: the first slot that holds `fd`. -/
def findFdNode (l : FdList) (fd : Int) : Option (Fin fdListSize) :=
  (List.finRange fdListSize).find? fun i => (l i).fd = fd

/-- `add_fd_list`: take a free slot; `-1` if there is none. -/
def addFdList (l : FdList) (fd : Int) (handler : FdHandler) : Int × FdList :=
  match l.findFdNode (-1) with
  | none => (-1, l)
  | some i => (0, Function.update l i ⟨fd, some handler⟩)

/-- `del_fd_list`: free the first slot that holds `fd`; `-1` if there is none. -/
def delFdList (l : FdList) (fd : Int) : Int × FdList :=
  match l.findFdNode fd with
  | none => (-1, l)
  | some i => (0, Function.update l i resetFdNode)

/-- Some slot holds `fd` with this handler. -/
def Registered (l : FdList) (fd : Int) (handler : FdHandler) : Prop :=
  ∃ i, l i = ⟨fd, some handler⟩

instance (l : FdList) (fd : Int) (handler : FdHandler) : Decidable (l.Registered fd handler) :=
  inferInstanceAs (Decidable (∃ _, _))

end FdList

end Vapp
