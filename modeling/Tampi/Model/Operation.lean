/-! # Operations (`Operation.hpp`, `Operation.cpp`)

The operation objects a task fills in and the polling task later issues. Buffers, arrays, datatypes,
reduction operators and communicators are opaque handles. `OpId` is a history variable: it names
the submission an object, a ticket or a task context belongs to. -/

namespace Tampi

abbrev Handle := Nat

inductive OpKind
  | p2p
  | coll
  deriving DecidableEq, Repr

/-- The submission: its kind, the logical CPU it was made on, and a serial number. -/
structure OpId where
  kind : OpKind
  cpu : Nat
  serial : Nat
  deriving DecidableEq, Repr

inductive OpCode
  | NONE
  | BSEND | RECV | RSEND | SEND | SSEND
  | ALLGATHER | ALLGATHERV | ALLREDUCE | ALLTOALL | ALLTOALLV | ALLTOALLW | BARRIER | BCAST
  | EXSCAN | GATHER | GATHERV | REDUCE | REDUCESCATTER | REDUCESCATTERBLOCK | SCAN | SCATTER
  | SCATTERV
  deriving DecidableEq, Repr

inductive OpNature
  | BLK
  | NONBLK
  deriving DecidableEq, Repr

/-- `status_ptr_t`: `STATUS_IGNORE` (`STATUSES_IGNORE` in C) or a location of the caller. -/
inductive StatusPtr
  | ignore
  | addr (location : Nat)
  deriving DecidableEq, Repr

/-- The immediate MPI call an operation is issued with. -/
inductive MpiCall
  | isend (buf : Handle) (count : Int) (datatype : Handle) (rank tag : Int) (comm : Handle)
  | ibsend (buf : Handle) (count : Int) (datatype : Handle) (rank tag : Int) (comm : Handle)
  | irsend (buf : Handle) (count : Int) (datatype : Handle) (rank tag : Int) (comm : Handle)
  | issend (buf : Handle) (count : Int) (datatype : Handle) (rank tag : Int) (comm : Handle)
  | irecv (buf : Handle) (count : Int) (datatype : Handle) (rank tag : Int) (comm : Handle)
  | iallgather (sendbuf : Handle) (sendcount : Int) (sendtype recvbuf : Handle) (recvcount : Int)
      (recvtype comm : Handle)
  | iallgatherv (sendbuf : Handle) (sendcount : Int) (sendtype recvbuf recvcounts displs recvtype
      comm : Handle)
  | iallreduce (sendbuf recvbuf : Handle) (count : Int) (datatype op comm : Handle)
  | ialltoall (sendbuf : Handle) (sendcount : Int) (sendtype recvbuf : Handle) (recvcount : Int)
      (recvtype comm : Handle)
  | ialltoallv (sendbuf sendcounts sdispls sendtype recvbuf recvcounts rdispls recvtype
      comm : Handle)
  | ialltoallw (sendbuf sendcounts sdispls sendtypes recvbuf recvcounts rdispls recvtypes
      comm : Handle)
  | ibarrier (comm : Handle)
  | ibcast (buf : Handle) (count : Int) (datatype : Handle) (root : Int) (comm : Handle)
  | iexscan (sendbuf recvbuf : Handle) (count : Int) (datatype op comm : Handle)
  | igather (sendbuf : Handle) (sendcount : Int) (sendtype recvbuf : Handle) (recvcount : Int)
      (recvtype : Handle) (root : Int) (comm : Handle)
  | igatherv (sendbuf : Handle) (sendcount : Int) (sendtype recvbuf recvcounts displs
      recvtype : Handle) (root : Int) (comm : Handle)
  | ireduce (sendbuf recvbuf : Handle) (count : Int) (datatype op : Handle) (root : Int)
      (comm : Handle)
  | ireduceScatter (sendbuf recvbuf recvcounts datatype op comm : Handle)
  | ireduceScatterBlock (sendbuf recvbuf : Handle) (recvcount : Int) (datatype op comm : Handle)
  | iscan (sendbuf recvbuf : Handle) (count : Int) (datatype op comm : Handle)
  | iscatter (sendbuf : Handle) (sendcount : Int) (sendtype recvbuf : Handle) (recvcount : Int)
      (recvtype : Handle) (root : Int) (comm : Handle)
  | iscatterv (sendbuf sendcounts displs sendtype recvbuf : Handle) (recvcount : Int)
      (recvtype : Handle) (root : Int) (comm : Handle)
  deriving DecidableEq, Repr

structure Operation where
  id : OpId
  task : Handle
  status : StatusPtr
  buffer : Handle
  count : Int
  datatype : Handle
  comm : Handle
  rank : Int
  tag : Int
  code : OpCode
  nature : OpNature
  deriving DecidableEq, Repr

/-- `Operation<C>::issue`; `none` is the failure `Invalid operation`. -/
def Operation.issue (o : Operation) : Option MpiCall :=
  match o.code with
  | .SEND => some (.isend o.buffer o.count o.datatype o.rank o.tag o.comm)
  | .BSEND => some (.ibsend o.buffer o.count o.datatype o.rank o.tag o.comm)
  | .RSEND => some (.irsend o.buffer o.count o.datatype o.rank o.tag o.comm)
  | .SSEND => some (.issend o.buffer o.count o.datatype o.rank o.tag o.comm)
  | .RECV => some (.irecv o.buffer o.count o.datatype o.rank o.tag o.comm)
  | _ => none

/-- A union of a scalar and the pointer to an array, with the member last written. -/
inductive Scalar (α : Type)
  | one (value : α)
  | array (values : Handle)
  deriving DecidableEq, Repr

/-- A field a constructor did not set is `none`. -/
structure CollOperation where
  id : OpId
  task : Handle
  sendbuf : Handle
  recvbuf : Handle
  senddispls : Option Handle
  recvdispls : Option Handle
  sendcount : Scalar Int
  recvcount : Scalar Int
  sendtype : Scalar Handle
  recvtype : Scalar Handle
  comm : Handle
  rank : Int
  op : Handle
  code : OpCode
  nature : OpNature
  deriving DecidableEq, Repr

def Scalar.get : Scalar α → Option α
  | .one value => some value
  | .array _ => none

def Scalar.getArray : Scalar α → Option Handle
  | .one _ => none
  | .array values => some values

/-- `CollOperation<C>::issue`; `none` is the failure `Invalid large operation`, or the read of an
unset field or of the other member of a union. -/
def CollOperation.issue (o : CollOperation) : Option MpiCall :=
  match o.code with
  | .ALLGATHER => do
    return .iallgather o.sendbuf (← o.sendcount.get) (← o.sendtype.get) o.recvbuf
      (← o.recvcount.get) (← o.recvtype.get) o.comm
  | .ALLGATHERV => do
    return .iallgatherv o.sendbuf (← o.sendcount.get) (← o.sendtype.get) o.recvbuf
      (← o.recvcount.getArray) (← o.recvdispls) (← o.recvtype.get) o.comm
  | .ALLREDUCE => do
    return .iallreduce o.sendbuf o.recvbuf (← o.sendcount.get) (← o.sendtype.get) o.op o.comm
  | .ALLTOALL => do
    return .ialltoall o.sendbuf (← o.sendcount.get) (← o.sendtype.get) o.recvbuf
      (← o.recvcount.get) (← o.recvtype.get) o.comm
  | .ALLTOALLV => do
    return .ialltoallv o.sendbuf (← o.sendcount.getArray) (← o.senddispls) (← o.sendtype.get)
      o.recvbuf (← o.recvcount.getArray) (← o.recvdispls) (← o.recvtype.get) o.comm
  | .ALLTOALLW => do
    return .ialltoallw o.sendbuf (← o.sendcount.getArray) (← o.senddispls) (← o.sendtype.getArray)
      o.recvbuf (← o.recvcount.getArray) (← o.recvdispls) (← o.recvtype.getArray) o.comm
  | .BARRIER => some (.ibarrier o.comm)
  | .BCAST => do
    return .ibcast o.recvbuf (← o.recvcount.get) (← o.recvtype.get) o.rank o.comm
  | .EXSCAN => do
    return .iexscan o.sendbuf o.recvbuf (← o.sendcount.get) (← o.sendtype.get) o.op o.comm
  | .GATHER => do
    return .igather o.sendbuf (← o.sendcount.get) (← o.sendtype.get) o.recvbuf
      (← o.recvcount.get) (← o.recvtype.get) o.rank o.comm
  | .GATHERV => do
    return .igatherv o.sendbuf (← o.sendcount.get) (← o.sendtype.get) o.recvbuf
      (← o.recvcount.getArray) (← o.recvdispls) (← o.recvtype.get) o.rank o.comm
  | .REDUCE => do
    return .ireduce o.sendbuf o.recvbuf (← o.sendcount.get) (← o.sendtype.get) o.op o.rank o.comm
  | .REDUCESCATTER => do
    return .ireduceScatter o.sendbuf o.recvbuf (← o.recvcount.getArray) (← o.sendtype.get) o.op
      o.comm
  | .REDUCESCATTERBLOCK => do
    return .ireduceScatterBlock o.sendbuf o.recvbuf (← o.recvcount.get) (← o.sendtype.get) o.op
      o.comm
  | .SCAN => do
    return .iscan o.sendbuf o.recvbuf (← o.sendcount.get) (← o.sendtype.get) o.op o.comm
  | .SCATTER => do
    return .iscatter o.sendbuf (← o.sendcount.get) (← o.sendtype.get) o.recvbuf
      (← o.recvcount.get) (← o.recvtype.get) o.rank o.comm
  | .SCATTERV => do
    return .iscatterv o.sendbuf (← o.sendcount.getArray) (← o.senddispls) (← o.sendtype.get)
      o.recvbuf (← o.recvcount.get) (← o.recvtype.get) o.rank o.comm
  | _ => none

/-- An operation object of either kind. -/
inductive Op
  | p2p (o : Operation)
  | coll (o : CollOperation)
  deriving DecidableEq, Repr

namespace Op

def id : Op → OpId
  | p2p o => o.id
  | coll o => o.id

def task : Op → Handle
  | p2p o => o.task
  | coll o => o.task

def nature : Op → OpNature
  | p2p o => o.nature
  | coll o => o.nature

/-- Where the status goes; a collective operation has none. -/
def status : Op → StatusPtr
  | p2p o => o.status
  | coll _ => .ignore

def kind : Op → OpKind
  | p2p _ => .p2p
  | coll _ => .coll

def issue : Op → Option MpiCall
  | p2p o => o.issue
  | coll o => o.issue

/-- The object `Allocator::alloc` constructs from the arguments of `process`; the arguments come
as an operation whose identity, task and nature are not yet filled in. -/
def construct (args : Op) (serial cpu : Nat) (task : Handle) (nature : OpNature) : Op :=
  match args with
  | p2p o => p2p { o with id := ⟨.p2p, cpu, serial⟩, task := task, nature := nature }
  | coll o => coll { o with id := ⟨.coll, cpu, serial⟩, task := task, nature := nature }

section
variable (args : Op) (serial cpu : Nat) (t : Handle) (n : OpNature)

@[simp] theorem construct_id : (construct args serial cpu t n).id = ⟨args.kind, cpu, serial⟩ := by
  cases args <;> rfl

@[simp] theorem construct_task : (construct args serial cpu t n).task = t := by cases args <;> rfl

@[simp] theorem construct_kind : (construct args serial cpu t n).kind = args.kind := by
  cases args <;> rfl

end

end Op

end Tampi
