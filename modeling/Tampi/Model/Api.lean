import Tampi.Model.Environment
import Tampi.Model.Operation

/-! # The intercepted MPI functions (`c/*.cpp`, `OperationManager.hpp`)

Each operation has a blocking function `MPI_X` and a non-blocking one `TAMPI_IX`. A function either
calls `OperationManager::process` with its arguments in the order of a constructor of `Operation` or
`CollOperation`, or calls the native MPI function of its name, or stops in `ErrorHandler::fail`. The
constructor is chosen by the types of the arguments, and these depend on how the MPI implementation
represents its handles. -/

namespace Tampi

/-- A call of an intercepted function, with the arguments in the order of its prototype. -/
inductive ApiCall
  | bsend (buf : Handle) (count : Int) (datatype : Handle) (dest tag : Int) (comm : Handle)
  | recv (buf : Handle) (count : Int) (datatype : Handle) (source tag : Int) (comm : Handle)
      (status : StatusPtr)
  | rsend (buf : Handle) (count : Int) (datatype : Handle) (dest tag : Int) (comm : Handle)
  | send (buf : Handle) (count : Int) (datatype : Handle) (dest tag : Int) (comm : Handle)
  | ssend (buf : Handle) (count : Int) (datatype : Handle) (dest tag : Int) (comm : Handle)
  | allgather (sendbuf : Handle) (sendcount : Int) (sendtype recvbuf : Handle) (recvcount : Int)
      (recvtype comm : Handle)
  | allgatherv (sendbuf : Handle) (sendcount : Int) (sendtype recvbuf recvcounts displs recvtype
      comm : Handle)
  | allreduce (sendbuf recvbuf : Handle) (count : Int) (datatype op comm : Handle)
  | alltoall (sendbuf : Handle) (sendcount : Int) (sendtype recvbuf : Handle) (recvcount : Int)
      (recvtype comm : Handle)
  | alltoallv (sendbuf sendcounts sdispls sendtype recvbuf recvcounts rdispls recvtype
      comm : Handle)
  | alltoallw (sendbuf sendcounts sdispls sendtypes recvbuf recvcounts rdispls recvtypes
      comm : Handle)
  | barrier (comm : Handle)
  | bcast (buffer : Handle) (count : Int) (datatype : Handle) (root : Int) (comm : Handle)
  | exscan (sendbuf recvbuf : Handle) (count : Int) (datatype op comm : Handle)
  | gather (sendbuf : Handle) (sendcount : Int) (sendtype recvbuf : Handle) (recvcount : Int)
      (recvtype : Handle) (root : Int) (comm : Handle)
  | gatherv (sendbuf : Handle) (sendcount : Int) (sendtype recvbuf recvcounts displs
      recvtype : Handle) (root : Int) (comm : Handle)
  | reduce (sendbuf recvbuf : Handle) (count : Int) (datatype op : Handle) (root : Int)
      (comm : Handle)
  | reduceScatter (sendbuf recvbuf recvcounts datatype op comm : Handle)
  | reduceScatterBlock (sendbuf recvbuf : Handle) (recvcount : Int) (datatype op comm : Handle)
  | scan (sendbuf recvbuf : Handle) (count : Int) (datatype op comm : Handle)
  | scatter (sendbuf : Handle) (sendcount : Int) (sendtype recvbuf : Handle) (recvcount : Int)
      (recvtype : Handle) (root : Int) (comm : Handle)
  | scatterv (sendbuf sendcounts displs sendtype recvbuf : Handle) (recvcount : Int)
      (recvtype : Handle) (root : Int) (comm : Handle)
  | wait (request : Handle) (status : StatusPtr)
  | waitall (count : Int) (requests : Handle) (statuses : StatusPtr)
  deriving DecidableEq, Repr

/-! ## The arguments of `process` -/

/-- The C type of an argument of `process` or of a parameter of a constructor. -/
inductive ArgType
  | int
  /-- `const int *`. -/
  | ints
  | constVoid
  | void
  | nullptr
  | datatype
  /-- `const MPI_Datatype *`. -/
  | datatypes
  | op
  | comm
  | status
  deriving DecidableEq, Repr

/-- An argument with the type it is forwarded with. -/
inductive Arg
  | int (value : Int)
  | ints (array : Handle)
  | constVoid (buffer : Handle)
  | void (buffer : Handle)
  | nullptr
  | datatype (handle : Handle)
  | datatypes (array : Handle)
  | op (handle : Handle)
  | comm (handle : Handle)
  | status (location : StatusPtr)
  deriving DecidableEq, Repr

namespace Arg

def type : Arg → ArgType
  | int _ => .int
  | ints _ => .ints
  | constVoid _ => .constVoid
  | void _ => .void
  | nullptr => .nullptr
  | datatype _ => .datatype
  | datatypes _ => .datatypes
  | op _ => .op
  | comm _ => .comm
  | status _ => .status

/-- The value a parameter that is a pointer or a handle receives. -/
def toHandle : Arg → Handle
  | int value => value.toNat
  | ints h | constVoid h | void h | datatype h | datatypes h | op h | comm h => h
  | nullptr => 0
  | status .ignore => 0
  | status (.addr location) => location

/-- The value a parameter of type `int` receives. -/
def toInt : Arg → Int
  | int value => value
  | a => a.toHandle

def toStatus : Arg → StatusPtr
  | status location => location
  | _ => .ignore

end Arg

/-- How the MPI implementation represents datatypes, operators and communicators: as integers, or as
pointers to objects. -/
inductive Abi
  | integers
  | pointers
  deriving DecidableEq, Repr

/-- The objects a handle points to. -/
inductive Object
  | datatype
  | op
  | comm
  deriving DecidableEq, Repr

inductive CType
  | int
  | constIntPtr
  | constVoidPtr
  | voidPtr
  | nullptr
  | objectPtr (object : Object)
  /-- `ompi_datatype_t *const *`. -/
  | constObjectPtrPtr
  | statusPtr
  deriving DecidableEq, Repr

def ArgType.ctype (abi : Abi) : ArgType → CType
  | int => .int
  | ints => .constIntPtr
  | constVoid => .constVoidPtr
  | void => .voidPtr
  | nullptr => .nullptr
  | datatype => match abi with
    | .integers => .int
    | .pointers => .objectPtr .datatype
  | datatypes => match abi with
    | .integers => .constIntPtr
    | .pointers => .constObjectPtrPtr
  | op => match abi with
    | .integers => .int
    | .pointers => .objectPtr .op
  | comm => match abi with
    | .integers => .int
    | .pointers => .objectPtr .comm
  | status => .statusPtr

/-- Whether an argument of the first type is implicitly converted to a parameter of the second: a
pointer to an object that is not constant also converts to `void *`, and every pointer to
`const void *`. -/
def CType.converts : CType → CType → Bool
  | .nullptr, p => p != .int
  | .constIntPtr, .constVoidPtr | .constObjectPtrPtr, .constVoidPtr => true
  | .voidPtr, .constVoidPtr => true
  | .objectPtr _, .constVoidPtr | .objectPtr _, .voidPtr => true
  | .statusPtr, .constVoidPtr | .statusPtr, .voidPtr => true
  | a, b => a == b

/-! ## The constructors of the operations -/

/-- The constants `MPI_DATATYPE_NULL` and `MPI_OP_NULL`. -/
structure MpiConstants where
  datatypeNull : Handle
  opNull : Handle
  deriving DecidableEq, Repr

/-- A constructor, with the parameters that follow the task, the code and the nature. -/
structure Constructor where
  params : List ArgType
  /-- The default values of the last parameters. -/
  defaults : List Arg
  apply : OpId → Handle → OpCode → OpNature → List Arg → Option Op

namespace Constructor

def viable (abi : Abi) (k : Constructor) (args : List Arg) : Bool :=
  args.length ≤ k.params.length && k.params.length ≤ args.length + k.defaults.length &&
    (args.zip k.params).all fun (a, p) => (a.type.ctype abi).converts (p.ctype abi)

/-- The arguments, followed by the default values of the parameters that have none. -/
def complete (k : Constructor) (args : List Arg) : List Arg :=
  args ++ k.defaults.drop (args.length + k.defaults.length - k.params.length)

end Constructor

/-- The constructor of `Operation`. -/
def Operation.constructor : Constructor where
  params := [.constVoid, .int, .datatype, .int, .int, .comm, .status]
  defaults := [.status .ignore]
  apply id task code nature
    | [buffer, count, datatype, rank, tag, comm, status] =>
      some (.p2p {
        id, task, code, nature, buffer := buffer.toHandle, count := count.toInt
        datatype := datatype.toHandle, rank := rank.toInt, tag := tag.toInt
        comm := comm.toHandle, status := status.toStatus })
    | _ => none

namespace CollOperation
variable (K : MpiConstants)

/-- One count and one type for both buffers. -/
def scalar : Constructor where
  params := [.comm, .constVoid, .int, .datatype, .void, .int, .datatype, .op, .int]
  defaults := [.op K.opNull, .int 0]
  apply id task code nature
    | [comm, sendbuf, sendcount, sendtype, recvbuf, recvcount, recvtype, op, rank] =>
      some (.coll {
        id, task, code, nature, sendbuf := sendbuf.toHandle, recvbuf := recvbuf.toHandle
        senddispls := none, recvdispls := none
        sendcount := .one sendcount.toInt, recvcount := .one recvcount.toInt
        sendtype := .one sendtype.toHandle, recvtype := .one recvtype.toHandle
        comm := comm.toHandle, rank := rank.toInt, op := op.toHandle })
    | _ => none

/-- Counts and displacements for the send buffer. -/
def sendVector : Constructor where
  params := [.comm, .constVoid, .ints, .ints, .datatype, .void, .int, .datatype, .op, .int]
  defaults := [.op K.opNull, .int 0]
  apply id task code nature
    | [comm, sendbuf, sendcounts, senddispls, sendtype, recvbuf, recvcount, recvtype, op, rank] =>
      some (.coll {
        id, task, code, nature, sendbuf := sendbuf.toHandle, recvbuf := recvbuf.toHandle
        senddispls := some senddispls.toHandle, recvdispls := none
        sendcount := .array sendcounts.toHandle, recvcount := .one recvcount.toInt
        sendtype := .one sendtype.toHandle, recvtype := .one recvtype.toHandle
        comm := comm.toHandle, rank := rank.toInt, op := op.toHandle })
    | _ => none

/-- Counts and displacements for the receive buffer. -/
def recvVector : Constructor where
  params := [.comm, .constVoid, .int, .datatype, .void, .ints, .ints, .datatype, .op, .int]
  defaults := [.op K.opNull, .int 0]
  apply id task code nature
    | [comm, sendbuf, sendcount, sendtype, recvbuf, recvcounts, recvdispls, recvtype, op, rank] =>
      some (.coll {
        id, task, code, nature, sendbuf := sendbuf.toHandle, recvbuf := recvbuf.toHandle
        senddispls := none, recvdispls := some recvdispls.toHandle
        sendcount := .one sendcount.toInt, recvcount := .array recvcounts.toHandle
        sendtype := .one sendtype.toHandle, recvtype := .one recvtype.toHandle
        comm := comm.toHandle, rank := rank.toInt, op := op.toHandle })
    | _ => none

/-- Counts and displacements for both buffers. -/
def vector : Constructor where
  params := [.comm, .constVoid, .ints, .ints, .datatype, .void, .ints, .ints, .datatype, .op, .int]
  defaults := [.op K.opNull, .int 0]
  apply id task code nature
    | [comm, sendbuf, sendcounts, senddispls, sendtype, recvbuf, recvcounts, recvdispls, recvtype,
        op, rank] =>
      some (.coll {
        id, task, code, nature, sendbuf := sendbuf.toHandle, recvbuf := recvbuf.toHandle
        senddispls := some senddispls.toHandle, recvdispls := some recvdispls.toHandle
        sendcount := .array sendcounts.toHandle, recvcount := .array recvcounts.toHandle
        sendtype := .one sendtype.toHandle, recvtype := .one recvtype.toHandle
        comm := comm.toHandle, rank := rank.toInt, op := op.toHandle })
    | _ => none

/-- Counts, displacements and types for both buffers. -/
def typeVector : Constructor where
  params := [.comm, .constVoid, .ints, .ints, .datatypes, .void, .ints, .ints, .datatypes, .op,
    .int]
  defaults := [.op K.opNull, .int 0]
  apply id task code nature
    | [comm, sendbuf, sendcounts, senddispls, sendtypes, recvbuf, recvcounts, recvdispls, recvtypes,
        op, rank] =>
      some (.coll {
        id, task, code, nature, sendbuf := sendbuf.toHandle, recvbuf := recvbuf.toHandle
        senddispls := some senddispls.toHandle, recvdispls := some recvdispls.toHandle
        sendcount := .array sendcounts.toHandle, recvcount := .array recvcounts.toHandle
        sendtype := .array sendtypes.toHandle, recvtype := .array recvtypes.toHandle
        comm := comm.toHandle, rank := rank.toInt, op := op.toHandle })
    | _ => none

def constructors : List Constructor :=
  [scalar K, sendVector K, recvVector K, vector K, typeVector K]

end CollOperation

def OpKind.constructors (K : MpiConstants) : OpKind → List Constructor
  | .p2p => [Operation.constructor]
  | .coll => CollOperation.constructors K

/-- The object `process` constructs; `none` is a call with no viable constructor or with several. -/
def OpKind.build (abi : Abi) (K : MpiConstants) (kind : OpKind) (id : OpId) (task : Handle)
    (code : OpCode) (nature : OpNature) (args : List Arg) : Option Op :=
  match (kind.constructors K).filter (·.viable abi args) with
  | [k] => k.apply id task code nature (k.complete args)
  | _ => none

/-! ## The functions -/

inductive ApiEffect
  /-- A call of `OperationManager::process`. -/
  | process (kind : OpKind) (code : OpCode) (nature : OpNature) (args : List Arg)
  /-- A call of the native function. -/
  | native (call : ApiCall)
  deriving DecidableEq, Repr

/-- The calls a function makes and the code it returns, or the message of the failure. -/
abbrev Outcome := Except String (List ApiEffect × Int)

section
variable (K : MpiConstants) (E : Environment) (thread : Nat) (native : ApiCall → Int)

/-- `native` gives the code the native functions return. -/
def blockingCall (process : ApiEffect) (call : ApiCall) : Outcome :=
  if E.isBlockingEnabledForCurrentThread thread then .ok ([process], MPI_SUCCESS)
  else .ok ([.native call], native call)

def nonBlockingCall (func : String) (process : ApiEffect) : Outcome :=
  if E.isNonBlockingEnabled then .ok ([process], MPI_SUCCESS)
  else .error (func ++ " not enabled")

def mpiBsend (buf : Handle) (count : Int) (datatype : Handle) (dest tag : Int)
    (comm : Handle) : Outcome :=
  blockingCall E thread native
    (.process .p2p .BSEND .BLK [.constVoid buf, .int count, .datatype datatype, .int dest, .int tag,
      .comm comm])
    (.bsend buf count datatype dest tag comm)

def tampiIbsend (buf : Handle) (count : Int) (datatype : Handle) (dest tag : Int)
    (comm : Handle) : Outcome :=
  nonBlockingCall E "TAMPI_Ibsend"
    (.process .p2p .BSEND .NONBLK [.constVoid buf, .int count, .datatype datatype, .int dest,
      .int tag, .comm comm])

def mpiRecv (buf : Handle) (count : Int) (datatype : Handle) (source tag : Int) (comm : Handle)
    (status : StatusPtr) : Outcome :=
  blockingCall E thread native
    (.process .p2p .RECV .BLK [.void buf, .int count, .datatype datatype, .int source, .int tag,
      .comm comm, .status status])
    (.recv buf count datatype source tag comm status)

def tampiIrecv (buf : Handle) (count : Int) (datatype : Handle) (source tag : Int) (comm : Handle)
    (status : StatusPtr) : Outcome :=
  nonBlockingCall E "TAMPI_Irecv"
    (.process .p2p .RECV .NONBLK [.void buf, .int count, .datatype datatype, .int source, .int tag,
      .comm comm, .status status])

def mpiRsend (buf : Handle) (count : Int) (datatype : Handle) (dest tag : Int)
    (comm : Handle) : Outcome :=
  blockingCall E thread native
    (.process .p2p .RSEND .BLK [.constVoid buf, .int count, .datatype datatype, .int dest, .int tag,
      .comm comm])
    (.rsend buf count datatype dest tag comm)

def tampiIrsend (buf : Handle) (count : Int) (datatype : Handle) (dest tag : Int)
    (comm : Handle) : Outcome :=
  nonBlockingCall E "TAMPI_Irsend"
    (.process .p2p .RSEND .NONBLK [.constVoid buf, .int count, .datatype datatype, .int dest,
      .int tag, .comm comm])

def mpiSend (buf : Handle) (count : Int) (datatype : Handle) (dest tag : Int)
    (comm : Handle) : Outcome :=
  blockingCall E thread native
    (.process .p2p .SEND .BLK [.constVoid buf, .int count, .datatype datatype, .int dest, .int tag,
      .comm comm])
    (.send buf count datatype dest tag comm)

def tampiIsend (buf : Handle) (count : Int) (datatype : Handle) (dest tag : Int)
    (comm : Handle) : Outcome :=
  nonBlockingCall E "TAMPI_Isend"
    (.process .p2p .SEND .NONBLK [.constVoid buf, .int count, .datatype datatype, .int dest,
      .int tag, .comm comm])

def mpiSsend (buf : Handle) (count : Int) (datatype : Handle) (dest tag : Int)
    (comm : Handle) : Outcome :=
  blockingCall E thread native
    (.process .p2p .SSEND .BLK [.constVoid buf, .int count, .datatype datatype, .int dest, .int tag,
      .comm comm])
    (.ssend buf count datatype dest tag comm)

def tampiIssend (buf : Handle) (count : Int) (datatype : Handle) (dest tag : Int)
    (comm : Handle) : Outcome :=
  nonBlockingCall E "TAMPI_Issend"
    (.process .p2p .SSEND .NONBLK [.constVoid buf, .int count, .datatype datatype, .int dest,
      .int tag, .comm comm])

def mpiAllgather (sendbuf : Handle) (sendcount : Int) (sendtype recvbuf : Handle) (recvcount : Int)
    (recvtype comm : Handle) : Outcome :=
  blockingCall E thread native
    (.process .coll .ALLGATHER .BLK [.comm comm, .constVoid sendbuf, .int sendcount,
      .datatype sendtype, .void recvbuf, .int recvcount, .datatype recvtype])
    (.allgather sendbuf sendcount sendtype recvbuf recvcount recvtype comm)

def tampiIallgather (sendbuf : Handle) (sendcount : Int) (sendtype recvbuf : Handle)
    (recvcount : Int) (recvtype comm : Handle) : Outcome :=
  nonBlockingCall E "TAMPI_Iallgather"
    (.process .coll .ALLGATHER .NONBLK [.comm comm, .constVoid sendbuf, .int sendcount,
      .datatype sendtype, .void recvbuf, .int recvcount, .datatype recvtype])

def mpiAllgatherv (sendbuf : Handle) (sendcount : Int) (sendtype recvbuf recvcounts displs recvtype
    comm : Handle) : Outcome :=
  blockingCall E thread native
    (.process .coll .ALLGATHERV .BLK [.comm comm, .constVoid sendbuf, .int sendcount,
      .datatype sendtype, .void recvbuf, .ints recvcounts, .ints displs, .datatype recvtype])
    (.allgatherv sendbuf sendcount sendtype recvbuf recvcounts displs recvtype comm)

def tampiIallgatherv (sendbuf : Handle) (sendcount : Int) (sendtype recvbuf recvcounts displs
    recvtype comm : Handle) : Outcome :=
  nonBlockingCall E "TAMPI_Iallgatherv"
    (.process .coll .ALLGATHERV .NONBLK [.comm comm, .constVoid sendbuf, .int sendcount,
      .datatype sendtype, .void recvbuf, .ints recvcounts, .ints displs, .datatype recvtype])

def mpiAllreduce (sendbuf recvbuf : Handle) (count : Int) (datatype op comm : Handle) : Outcome :=
  blockingCall E thread native
    (.process .coll .ALLREDUCE .BLK [.comm comm, .constVoid sendbuf, .int count, .datatype datatype,
      .void recvbuf, .int count, .datatype datatype, .op op])
    (.allreduce sendbuf recvbuf count datatype op comm)

def tampiIallreduce (sendbuf recvbuf : Handle) (count : Int) (datatype op
    comm : Handle) : Outcome :=
  nonBlockingCall E "TAMPI_Iallreduce"
    (.process .coll .ALLREDUCE .NONBLK [.comm comm, .constVoid sendbuf, .int count,
      .datatype datatype, .void recvbuf, .int count, .datatype datatype, .op op])

def mpiAlltoall (sendbuf : Handle) (sendcount : Int) (sendtype recvbuf : Handle) (recvcount : Int)
    (recvtype comm : Handle) : Outcome :=
  blockingCall E thread native
    (.process .coll .ALLTOALL .BLK [.comm comm, .constVoid sendbuf, .int sendcount,
      .datatype sendtype, .void recvbuf, .int recvcount, .datatype recvtype])
    (.alltoall sendbuf sendcount sendtype recvbuf recvcount recvtype comm)

def tampiIalltoall (sendbuf : Handle) (sendcount : Int) (sendtype recvbuf : Handle)
    (recvcount : Int) (recvtype comm : Handle) : Outcome :=
  nonBlockingCall E "TAMPI_Ialltoall"
    (.process .coll .ALLTOALL .NONBLK [.comm comm, .constVoid sendbuf, .int sendcount,
      .datatype sendtype, .void recvbuf, .int recvcount, .datatype recvtype])

def mpiAlltoallv (sendbuf sendcounts sdispls sendtype recvbuf recvcounts rdispls recvtype
    comm : Handle) : Outcome :=
  blockingCall E thread native
    (.process .coll .ALLTOALLV .BLK [.comm comm, .constVoid sendbuf, .ints sendcounts,
      .ints sdispls, .datatype sendtype, .void recvbuf, .ints recvcounts, .ints rdispls,
      .datatype recvtype])
    (.alltoallv sendbuf sendcounts sdispls sendtype recvbuf recvcounts rdispls recvtype comm)

def tampiIalltoallv (sendbuf sendcounts sdispls sendtype recvbuf recvcounts rdispls recvtype
    comm : Handle) : Outcome :=
  nonBlockingCall E "TAMPI_Ialltoallv"
    (.process .coll .ALLTOALLV .NONBLK [.comm comm, .constVoid sendbuf, .ints sendcounts,
      .ints sdispls, .datatype sendtype, .void recvbuf, .ints recvcounts, .ints rdispls,
      .datatype recvtype])

def mpiAlltoallw (sendbuf sendcounts sdispls sendtypes recvbuf recvcounts rdispls recvtypes
    comm : Handle) : Outcome :=
  if E.isBlockingEnabledForCurrentThread thread then
    .ok ([.process .coll .ALLTOALLW .BLK [.comm comm, .constVoid sendbuf, .ints sendcounts,
      .ints sdispls, .datatypes sendtypes, .void recvbuf, .ints recvcounts, .ints rdispls,
      .datatypes recvtypes]], MPI_SUCCESS)
  else .error "TAMPI: MPI_Alltoallw not supported"

def tampiIalltoallw (sendbuf sendcounts sdispls sendtypes recvbuf recvcounts rdispls recvtypes
    comm : Handle) : Outcome :=
  nonBlockingCall E "TAMPI_Ialltoallw"
    (.process .coll .ALLTOALLW .NONBLK [.comm comm, .constVoid sendbuf, .ints sendcounts,
      .ints sdispls, .datatypes sendtypes, .void recvbuf, .ints recvcounts, .ints rdispls,
      .datatypes recvtypes])

def mpiBarrier (comm : Handle) : Outcome :=
  blockingCall E thread native
    (.process .coll .BARRIER .BLK [.comm comm, .nullptr, .int 0, .datatype K.datatypeNull, .nullptr,
      .int 0, .datatype K.datatypeNull])
    (.barrier comm)

def tampiIbarrier (comm : Handle) : Outcome :=
  nonBlockingCall E "TAMPI_Ibarrier"
    (.process .coll .BARRIER .NONBLK [.comm comm, .nullptr, .int 0, .datatype K.datatypeNull,
      .nullptr, .int 0, .datatype K.datatypeNull])

def mpiBcast (buffer : Handle) (count : Int) (datatype : Handle) (root : Int)
    (comm : Handle) : Outcome :=
  blockingCall E thread native
    (.process .coll .BCAST .BLK [.comm comm, .nullptr, .int 0, .datatype K.datatypeNull,
      .void buffer, .int count, .datatype datatype, .op K.opNull, .int root])
    (.bcast buffer count datatype root comm)

def tampiIbcast (buffer : Handle) (count : Int) (datatype : Handle) (root : Int)
    (comm : Handle) : Outcome :=
  nonBlockingCall E "TAMPI_Ibcast"
    (.process .coll .BCAST .NONBLK [.comm comm, .nullptr, .int 0, .datatype K.datatypeNull,
      .void buffer, .int count, .datatype datatype, .op K.opNull, .int root])

def mpiExscan (sendbuf recvbuf : Handle) (count : Int) (datatype op comm : Handle) : Outcome :=
  blockingCall E thread native
    (.process .coll .EXSCAN .BLK [.comm comm, .constVoid sendbuf, .int count, .datatype datatype,
      .void recvbuf, .int 0, .datatype K.datatypeNull, .op op])
    (.exscan sendbuf recvbuf count datatype op comm)

def tampiIexscan (sendbuf recvbuf : Handle) (count : Int) (datatype op comm : Handle) : Outcome :=
  nonBlockingCall E "TAMPI_Iexscan"
    (.process .coll .EXSCAN .NONBLK [.comm comm, .constVoid sendbuf, .int count, .datatype datatype,
      .void recvbuf, .int 0, .datatype K.datatypeNull, .op op])

def mpiGather (sendbuf : Handle) (sendcount : Int) (sendtype recvbuf : Handle) (recvcount : Int)
    (recvtype : Handle) (root : Int) (comm : Handle) : Outcome :=
  blockingCall E thread native
    (.process .coll .GATHER .BLK [.comm comm, .constVoid sendbuf, .int sendcount,
      .datatype sendtype, .void recvbuf, .int recvcount, .datatype recvtype, .op K.opNull,
      .int root])
    (.gather sendbuf sendcount sendtype recvbuf recvcount recvtype root comm)

def tampiIgather (sendbuf : Handle) (sendcount : Int) (sendtype recvbuf : Handle) (recvcount : Int)
    (recvtype : Handle) (root : Int) (comm : Handle) : Outcome :=
  nonBlockingCall E "TAMPI_Igather"
    (.process .coll .GATHER .NONBLK [.comm comm, .constVoid sendbuf, .int sendcount,
      .datatype sendtype, .void recvbuf, .int recvcount, .datatype recvtype, .op K.opNull,
      .int root])

def mpiGatherv (sendbuf : Handle) (sendcount : Int) (sendtype recvbuf recvcounts displs
    recvtype : Handle) (root : Int) (comm : Handle) : Outcome :=
  blockingCall E thread native
    (.process .coll .GATHERV .BLK [.comm comm, .constVoid sendbuf, .int sendcount,
      .datatype sendtype, .void recvbuf, .ints recvcounts, .ints displs, .datatype recvtype,
      .op K.opNull, .int root])
    (.gatherv sendbuf sendcount sendtype recvbuf recvcounts displs recvtype root comm)

def tampiIgatherv (sendbuf : Handle) (sendcount : Int) (sendtype recvbuf recvcounts displs
    recvtype : Handle) (root : Int) (comm : Handle) : Outcome :=
  nonBlockingCall E "TAMPI_Igatherv"
    (.process .coll .GATHERV .NONBLK [.comm comm, .constVoid sendbuf, .int sendcount,
      .datatype sendtype, .void recvbuf, .ints recvcounts, .ints displs, .datatype recvtype,
      .op K.opNull, .int root])

def mpiReduce (sendbuf recvbuf : Handle) (count : Int) (datatype op : Handle) (root : Int)
    (comm : Handle) : Outcome :=
  blockingCall E thread native
    (.process .coll .REDUCE .BLK [.comm comm, .constVoid sendbuf, .int count, .datatype datatype,
      .void recvbuf, .int count, .datatype datatype, .op op, .int root])
    (.reduce sendbuf recvbuf count datatype op root comm)

def tampiIreduce (sendbuf recvbuf : Handle) (count : Int) (datatype op : Handle) (root : Int)
    (comm : Handle) : Outcome :=
  nonBlockingCall E "TAMPI_Ireduce"
    (.process .coll .REDUCE .NONBLK [.comm comm, .constVoid sendbuf, .int count, .datatype datatype,
      .void recvbuf, .int count, .datatype datatype, .op op, .int root])

def mpiReduceScatter (sendbuf recvbuf recvcounts datatype op comm : Handle) : Outcome :=
  blockingCall E thread native
    (.process .coll .REDUCESCATTER .BLK [.comm comm, .constVoid sendbuf, .int 0, .datatype datatype,
      .void recvbuf, .ints recvcounts, .nullptr, .datatype K.datatypeNull, .op op])
    (.reduceScatter sendbuf recvbuf recvcounts datatype op comm)

def tampiIreduceScatter (sendbuf recvbuf recvcounts datatype op comm : Handle) : Outcome :=
  nonBlockingCall E "TAMPI_Ireduce_scatter"
    (.process .coll .REDUCESCATTER .NONBLK [.comm comm, .constVoid sendbuf, .int 0,
      .datatype datatype, .void recvbuf, .ints recvcounts, .nullptr, .datatype K.datatypeNull,
      .op op])

def mpiReduceScatterBlock (sendbuf recvbuf : Handle) (recvcount : Int) (datatype op
    comm : Handle) : Outcome :=
  blockingCall E thread native
    (.process .coll .REDUCESCATTERBLOCK .BLK [.comm comm, .constVoid sendbuf, .int 0,
      .datatype datatype, .void recvbuf, .int recvcount, .datatype K.datatypeNull, .op op])
    (.reduceScatterBlock sendbuf recvbuf recvcount datatype op comm)

def tampiIreduceScatterBlock (sendbuf recvbuf : Handle) (recvcount : Int) (datatype op
    comm : Handle) : Outcome :=
  nonBlockingCall E "TAMPI_Ireduce_scatter_block"
    (.process .coll .REDUCESCATTERBLOCK .NONBLK [.comm comm, .constVoid sendbuf, .int 0,
      .datatype datatype, .void recvbuf, .int recvcount, .datatype K.datatypeNull, .op op])

def mpiScan (sendbuf recvbuf : Handle) (count : Int) (datatype op comm : Handle) : Outcome :=
  blockingCall E thread native
    (.process .coll .SCAN .BLK [.comm comm, .constVoid sendbuf, .int count, .datatype datatype,
      .void recvbuf, .int 0, .datatype K.datatypeNull, .op op])
    (.scan sendbuf recvbuf count datatype op comm)

def tampiIscan (sendbuf recvbuf : Handle) (count : Int) (datatype op comm : Handle) : Outcome :=
  nonBlockingCall E "TAMPI_Iscan"
    (.process .coll .SCAN .NONBLK [.comm comm, .constVoid sendbuf, .int count, .datatype datatype,
      .void recvbuf, .int 0, .datatype K.datatypeNull, .op op])

def mpiScatter (sendbuf : Handle) (sendcount : Int) (sendtype recvbuf : Handle) (recvcount : Int)
    (recvtype : Handle) (root : Int) (comm : Handle) : Outcome :=
  blockingCall E thread native
    (.process .coll .SCATTER .BLK [.comm comm, .constVoid sendbuf, .int sendcount,
      .datatype sendtype, .void recvbuf, .int recvcount, .datatype recvtype, .op K.opNull,
      .int root])
    (.scatter sendbuf sendcount sendtype recvbuf recvcount recvtype root comm)

def tampiIscatter (sendbuf : Handle) (sendcount : Int) (sendtype recvbuf : Handle) (recvcount : Int)
    (recvtype : Handle) (root : Int) (comm : Handle) : Outcome :=
  nonBlockingCall E "TAMPI_Iscatter"
    (.process .coll .SCATTER .NONBLK [.comm comm, .constVoid sendbuf, .int sendcount,
      .datatype sendtype, .void recvbuf, .int recvcount, .datatype recvtype, .op K.opNull,
      .int root])

def mpiScatterv (sendbuf sendcounts displs sendtype recvbuf : Handle) (recvcount : Int)
    (recvtype : Handle) (root : Int) (comm : Handle) : Outcome :=
  blockingCall E thread native
    (.process .coll .SCATTERV .BLK [.comm comm, .constVoid sendbuf, .ints sendcounts, .ints displs,
      .datatype sendtype, .void recvbuf, .int recvcount, .datatype recvtype, .op K.opNull,
      .int root])
    (.scatterv sendbuf sendcounts displs sendtype recvbuf recvcount recvtype root comm)

def tampiIscatterv (sendbuf sendcounts displs sendtype recvbuf : Handle) (recvcount : Int)
    (recvtype : Handle) (root : Int) (comm : Handle) : Outcome :=
  nonBlockingCall E "TAMPI_Iscatterv"
    (.process .coll .SCATTERV .NONBLK [.comm comm, .constVoid sendbuf, .ints sendcounts,
      .ints displs, .datatype sendtype, .void recvbuf, .int recvcount, .datatype recvtype,
      .op K.opNull, .int root])

/-- `MPI_Wait` and `MPI_Waitall`, of which there is no task-aware version. -/
def waitCall (func : String) (call : ApiCall) : Outcome :=
  if E.isBlockingEnabledForCurrentThread thread then
    .error (func ++ " with task-aware behavior not supported")
  else .ok ([.native call], native call)

def mpiWait (request : Handle) (status : StatusPtr) : Outcome :=
  waitCall E thread native "MPI_Wait" (.wait request status)

def mpiWaitall (count : Int) (requests : Handle) (statuses : StatusPtr) : Outcome :=
  waitCall E thread native "MPI_Waitall" (.waitall count requests statuses)

def tampiIwait (_request : Handle) (_status : StatusPtr) : Outcome :=
  .error "TAMPI_Iwait not supported"

def tampiIwaitall (_count : Int) (_requests : Handle) (_statuses : StatusPtr) : Outcome :=
  .error "TAMPI: TAMPI_Iwaitall not supported"

/-- The function `MPI_X`. -/
def ApiCall.blocking : ApiCall → Outcome
  | .bsend buf count datatype dest tag comm =>
    mpiBsend E thread native buf count datatype dest tag comm
  | .recv buf count datatype source tag comm status =>
    mpiRecv E thread native buf count datatype source tag comm status
  | .rsend buf count datatype dest tag comm =>
    mpiRsend E thread native buf count datatype dest tag comm
  | .send buf count datatype dest tag comm =>
    mpiSend E thread native buf count datatype dest tag comm
  | .ssend buf count datatype dest tag comm =>
    mpiSsend E thread native buf count datatype dest tag comm
  | .allgather sendbuf sendcount sendtype recvbuf recvcount recvtype comm =>
    mpiAllgather E thread native sendbuf sendcount sendtype recvbuf recvcount recvtype comm
  | .allgatherv sendbuf sendcount sendtype recvbuf recvcounts displs recvtype comm =>
    mpiAllgatherv E thread native sendbuf sendcount sendtype recvbuf recvcounts displs recvtype comm
  | .allreduce sendbuf recvbuf count datatype op comm =>
    mpiAllreduce E thread native sendbuf recvbuf count datatype op comm
  | .alltoall sendbuf sendcount sendtype recvbuf recvcount recvtype comm =>
    mpiAlltoall E thread native sendbuf sendcount sendtype recvbuf recvcount recvtype comm
  | .alltoallv sendbuf sendcounts sdispls sendtype recvbuf recvcounts rdispls recvtype comm =>
    mpiAlltoallv E thread native sendbuf sendcounts sdispls sendtype recvbuf recvcounts rdispls
      recvtype comm
  | .alltoallw sendbuf sendcounts sdispls sendtypes recvbuf recvcounts rdispls recvtypes comm =>
    mpiAlltoallw E thread sendbuf sendcounts sdispls sendtypes recvbuf recvcounts rdispls
      recvtypes comm
  | .barrier comm => mpiBarrier K E thread native comm
  | .bcast buffer count datatype root comm =>
    mpiBcast K E thread native buffer count datatype root comm
  | .exscan sendbuf recvbuf count datatype op comm =>
    mpiExscan K E thread native sendbuf recvbuf count datatype op comm
  | .gather sendbuf sendcount sendtype recvbuf recvcount recvtype root comm =>
    mpiGather K E thread native sendbuf sendcount sendtype recvbuf recvcount recvtype root comm
  | .gatherv sendbuf sendcount sendtype recvbuf recvcounts displs recvtype root comm =>
    mpiGatherv K E thread native sendbuf sendcount sendtype recvbuf recvcounts displs recvtype
      root comm
  | .reduce sendbuf recvbuf count datatype op root comm =>
    mpiReduce E thread native sendbuf recvbuf count datatype op root comm
  | .reduceScatter sendbuf recvbuf recvcounts datatype op comm =>
    mpiReduceScatter K E thread native sendbuf recvbuf recvcounts datatype op comm
  | .reduceScatterBlock sendbuf recvbuf recvcount datatype op comm =>
    mpiReduceScatterBlock K E thread native sendbuf recvbuf recvcount datatype op comm
  | .scan sendbuf recvbuf count datatype op comm =>
    mpiScan K E thread native sendbuf recvbuf count datatype op comm
  | .scatter sendbuf sendcount sendtype recvbuf recvcount recvtype root comm =>
    mpiScatter K E thread native sendbuf sendcount sendtype recvbuf recvcount recvtype root comm
  | .scatterv sendbuf sendcounts displs sendtype recvbuf recvcount recvtype root comm =>
    mpiScatterv K E thread native sendbuf sendcounts displs sendtype recvbuf recvcount recvtype
      root comm
  | .wait request status => mpiWait E thread native request status
  | .waitall count requests statuses => mpiWaitall E thread native count requests statuses

/-- The function `TAMPI_IX`. -/
def ApiCall.nonBlocking : ApiCall → Outcome
  | .bsend buf count datatype dest tag comm => tampiIbsend E buf count datatype dest tag comm
  | .recv buf count datatype source tag comm status =>
    tampiIrecv E buf count datatype source tag comm status
  | .rsend buf count datatype dest tag comm => tampiIrsend E buf count datatype dest tag comm
  | .send buf count datatype dest tag comm => tampiIsend E buf count datatype dest tag comm
  | .ssend buf count datatype dest tag comm => tampiIssend E buf count datatype dest tag comm
  | .allgather sendbuf sendcount sendtype recvbuf recvcount recvtype comm =>
    tampiIallgather E sendbuf sendcount sendtype recvbuf recvcount recvtype comm
  | .allgatherv sendbuf sendcount sendtype recvbuf recvcounts displs recvtype comm =>
    tampiIallgatherv E sendbuf sendcount sendtype recvbuf recvcounts displs recvtype comm
  | .allreduce sendbuf recvbuf count datatype op comm =>
    tampiIallreduce E sendbuf recvbuf count datatype op comm
  | .alltoall sendbuf sendcount sendtype recvbuf recvcount recvtype comm =>
    tampiIalltoall E sendbuf sendcount sendtype recvbuf recvcount recvtype comm
  | .alltoallv sendbuf sendcounts sdispls sendtype recvbuf recvcounts rdispls recvtype comm =>
    tampiIalltoallv E sendbuf sendcounts sdispls sendtype recvbuf recvcounts rdispls recvtype comm
  | .alltoallw sendbuf sendcounts sdispls sendtypes recvbuf recvcounts rdispls recvtypes comm =>
    tampiIalltoallw E sendbuf sendcounts sdispls sendtypes recvbuf recvcounts rdispls recvtypes comm
  | .barrier comm => tampiIbarrier K E comm
  | .bcast buffer count datatype root comm => tampiIbcast K E buffer count datatype root comm
  | .exscan sendbuf recvbuf count datatype op comm =>
    tampiIexscan K E sendbuf recvbuf count datatype op comm
  | .gather sendbuf sendcount sendtype recvbuf recvcount recvtype root comm =>
    tampiIgather K E sendbuf sendcount sendtype recvbuf recvcount recvtype root comm
  | .gatherv sendbuf sendcount sendtype recvbuf recvcounts displs recvtype root comm =>
    tampiIgatherv K E sendbuf sendcount sendtype recvbuf recvcounts displs recvtype root comm
  | .reduce sendbuf recvbuf count datatype op root comm =>
    tampiIreduce E sendbuf recvbuf count datatype op root comm
  | .reduceScatter sendbuf recvbuf recvcounts datatype op comm =>
    tampiIreduceScatter K E sendbuf recvbuf recvcounts datatype op comm
  | .reduceScatterBlock sendbuf recvbuf recvcount datatype op comm =>
    tampiIreduceScatterBlock K E sendbuf recvbuf recvcount datatype op comm
  | .scan sendbuf recvbuf count datatype op comm =>
    tampiIscan K E sendbuf recvbuf count datatype op comm
  | .scatter sendbuf sendcount sendtype recvbuf recvcount recvtype root comm =>
    tampiIscatter K E sendbuf sendcount sendtype recvbuf recvcount recvtype root comm
  | .scatterv sendbuf sendcounts displs sendtype recvbuf recvcount recvtype root comm =>
    tampiIscatterv K E sendbuf sendcounts displs sendtype recvbuf recvcount recvtype root comm
  | .wait request status => tampiIwait request status
  | .waitall count requests statuses => tampiIwaitall count requests statuses

end

end Tampi
