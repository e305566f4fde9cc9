import Tampi.Model.Api
import Tampi.Verify.Environment

/-! # The arguments and the fallback of the intercepted functions

From the arguments of a function to the immediate MPI call the polling task makes: the types of what
the function passes to `process` select one constructor, and that constructor sets every field which
`issue` reads for the code of the operation. -/

namespace Tampi

namespace ApiCall

/-- The immediate MPI call of the same operation; waiting has none. -/
def immediate : ApiCall → Option MpiCall
  | bsend buf count datatype dest tag comm => some (.ibsend buf count datatype dest tag comm)
  | recv buf count datatype source tag comm _ => some (.irecv buf count datatype source tag comm)
  | rsend buf count datatype dest tag comm => some (.irsend buf count datatype dest tag comm)
  | send buf count datatype dest tag comm => some (.isend buf count datatype dest tag comm)
  | ssend buf count datatype dest tag comm => some (.issend buf count datatype dest tag comm)
  | allgather sendbuf sendcount sendtype recvbuf recvcount recvtype comm =>
    some (.iallgather sendbuf sendcount sendtype recvbuf recvcount recvtype comm)
  | allgatherv sendbuf sendcount sendtype recvbuf recvcounts displs recvtype comm =>
    some (.iallgatherv sendbuf sendcount sendtype recvbuf recvcounts displs recvtype comm)
  | allreduce sendbuf recvbuf count datatype op comm =>
    some (.iallreduce sendbuf recvbuf count datatype op comm)
  | alltoall sendbuf sendcount sendtype recvbuf recvcount recvtype comm =>
    some (.ialltoall sendbuf sendcount sendtype recvbuf recvcount recvtype comm)
  | alltoallv sendbuf sendcounts sdispls sendtype recvbuf recvcounts rdispls recvtype comm =>
    some (.ialltoallv sendbuf sendcounts sdispls sendtype recvbuf recvcounts rdispls recvtype comm)
  | alltoallw sendbuf sendcounts sdispls sendtypes recvbuf recvcounts rdispls recvtypes comm =>
    some (.ialltoallw sendbuf sendcounts sdispls sendtypes recvbuf recvcounts rdispls recvtypes
      comm)
  | barrier comm => some (.ibarrier comm)
  | bcast buffer count datatype root comm => some (.ibcast buffer count datatype root comm)
  | exscan sendbuf recvbuf count datatype op comm =>
    some (.iexscan sendbuf recvbuf count datatype op comm)
  | gather sendbuf sendcount sendtype recvbuf recvcount recvtype root comm =>
    some (.igather sendbuf sendcount sendtype recvbuf recvcount recvtype root comm)
  | gatherv sendbuf sendcount sendtype recvbuf recvcounts displs recvtype root comm =>
    some (.igatherv sendbuf sendcount sendtype recvbuf recvcounts displs recvtype root comm)
  | reduce sendbuf recvbuf count datatype op root comm =>
    some (.ireduce sendbuf recvbuf count datatype op root comm)
  | reduceScatter sendbuf recvbuf recvcounts datatype op comm =>
    some (.ireduceScatter sendbuf recvbuf recvcounts datatype op comm)
  | reduceScatterBlock sendbuf recvbuf recvcount datatype op comm =>
    some (.ireduceScatterBlock sendbuf recvbuf recvcount datatype op comm)
  | scan sendbuf recvbuf count datatype op comm =>
    some (.iscan sendbuf recvbuf count datatype op comm)
  | scatter sendbuf sendcount sendtype recvbuf recvcount recvtype root comm =>
    some (.iscatter sendbuf sendcount sendtype recvbuf recvcount recvtype root comm)
  | scatterv sendbuf sendcounts displs sendtype recvbuf recvcount recvtype root comm =>
    some (.iscatterv sendbuf sendcounts displs sendtype recvbuf recvcount recvtype root comm)
  | wait .. | waitall .. => none

/-- Where the caller wants the status of the operation. -/
def statusPtr : ApiCall → StatusPtr
  | recv _ _ _ _ _ _ status => status
  | _ => .ignore

def isAlltoallw : ApiCall → Bool
  | alltoallw .. => true
  | _ => false

end ApiCall

/-! ## Building an operation -/

namespace Op

/-- The same operation with another nature. -/
def withNature (nature : OpNature) : Op → Op
  | p2p o => p2p { o with nature }
  | coll o => coll { o with nature }

section
variable (op : Op) (serial cpu : Nat) (task : Handle) (nature : OpNature)

theorem construct_withNature (n : OpNature) :
    (op.construct serial cpu task nature).withNature n = op.construct serial cpu task n := by
  cases op <;> rfl

/-- The immediate call depends neither on the task nor on the nature of an operation. -/
@[simp] theorem construct_issue : (op.construct serial cpu task nature).issue = op.issue := by
  cases op <;> rfl

@[simp] theorem construct_status : (op.construct serial cpu task nature).status = op.status := by
  cases op <;> rfl

end

end Op

/-- A constructor copies the identity, the task and the nature, and reads none of them. -/
theorem Constructor.apply_construct {k : Constructor} {kind : OpKind}
    (hk : k ∈ kind.constructors K) (h : k.apply i t code n args = some op) (serial cpu : Nat)
    (task : Handle) (nature : OpNature) :
    k.apply ⟨kind, cpu, serial⟩ task code nature args =
      some (op.construct serial cpu task nature) := by
  cases kind with
  | p2p =>
    obtain rfl := List.mem_singleton.1 hk
    simp only [Operation.constructor] at h ⊢
    split at h
    · cases h
      rfl
    · cases h
  | coll =>
    simp only [OpKind.constructors, CollOperation.constructors, List.mem_cons, List.not_mem_nil,
      or_false] at hk
    obtain rfl | rfl | rfl | rfl | rfl := hk <;>
      simp only [CollOperation.scalar, CollOperation.sendVector, CollOperation.recvVector,
        CollOperation.vector, CollOperation.typeVector] at h ⊢ <;>
      split at h <;> cases h <;> rfl

theorem OpKind.build_construct {kind : OpKind}
    (h : kind.build abi K i t code n args = some op) (serial cpu : Nat) (task : Handle)
    (nature : OpNature) :
    kind.build abi K ⟨kind, cpu, serial⟩ task code nature args =
      some (op.construct serial cpu task nature) := by
  unfold OpKind.build at h ⊢
  split at h
  · rename_i k hk
    have hmem : k ∈ (kind.constructors K).filter (·.viable abi args) := by simp [hk]
    exact Constructor.apply_construct (List.mem_filter.1 hmem |>.1) h serial cpu task nature
  · cases h

/-! ## The two modes -/

section
open Environment (init demoBuild explicitInit)
variable (abi : Abi) (K : MpiConstants) (E : Environment) (thread : Nat) (native : ApiCall → Int)

theorem blockingCall_of_enabled {process call} (h : E.isBlockingEnabledForCurrentThread thread) :
    blockingCall E thread native process call = .ok ([process], MPI_SUCCESS) := if_pos h

theorem nonBlockingCall_of_enabled {func process} (h : E.isNonBlockingEnabled) :
    nonBlockingCall E func process = .ok ([process], MPI_SUCCESS) := if_pos h

theorem blockingCall_of_disabled {process call}
    (h : E.isBlockingEnabledForCurrentThread thread = false) :
    blockingCall E thread native process call = .ok ([.native call], native call) := by
  rw [blockingCall, h, if_neg Bool.false_ne_true]

theorem waitCall_of_disabled {func call}
    (h : E.isBlockingEnabledForCurrentThread thread = false) :
    waitCall E thread native func call = .ok ([.native call], native call) := by
  rw [waitCall, h, if_neg Bool.false_ne_true]

/-- What both functions of an operation pass to `process`, and the object made from it. -/
structure Passes (c : ApiCall) (kind : OpKind) (code : OpCode) (args : List Arg) (op : Op) :
    Prop where
  blocking : E.isBlockingEnabledForCurrentThread thread →
    c.blocking K E thread native = .ok ([.process kind code .BLK args], MPI_SUCCESS)
  nonBlocking : E.isNonBlockingEnabled →
    c.nonBlocking K E = .ok ([.process kind code .NONBLK args], MPI_SUCCESS)
  build : kind.build abi K ⟨kind, 0, 0⟩ 0 code .BLK args = some op
  issue : op.issue = c.immediate
  status : op.status = c.statusPtr

theorem exists_passes {c : ApiCall} {call : MpiCall} (h : c.immediate = some call) :
    ∃ kind code args op, Passes abi K E thread native c kind code args op := by
  cases abi <;> cases c with
  | wait | waitall => cases h
  | alltoallw =>
    exact ⟨_, _, _, _, fun h => if_pos h, nonBlockingCall_of_enabled E, rfl, rfl, rfl⟩
  | _ =>
    exact ⟨_, _, _, _, blockingCall_of_enabled E thread native, nonBlockingCall_of_enabled E,
      rfl, rfl, rfl⟩

/-- Both functions of an operation build objects that differ in their nature only, and an object is
issued with the immediate MPI call of the operation on the arguments of the caller. -/
theorem issue_calls_immediate {c : ApiCall} {call : MpiCall} (h : c.immediate = some call) :
    ∃ kind code args, ∃ op : Op,
      (E.isBlockingEnabledForCurrentThread thread →
        c.blocking K E thread native = .ok ([.process kind code .BLK args], MPI_SUCCESS)) ∧
      (E.isNonBlockingEnabled →
        c.nonBlocking K E = .ok ([.process kind code .NONBLK args], MPI_SUCCESS)) ∧
      ∀ serial cpu task,
        (∀ nature, kind.build abi K ⟨kind, cpu, serial⟩ task code nature args =
            some (op.construct serial cpu task nature) ∧
          (op.construct serial cpu task nature).issue = some call ∧
          (op.construct serial cpu task nature).status = c.statusPtr) ∧
        op.construct serial cpu task .NONBLK =
          (op.construct serial cpu task .BLK).withNature .NONBLK := by
  obtain ⟨kind, code, args, op, H⟩ := exists_passes abi K E thread native h
  refine ⟨kind, code, args, op, H.blocking, H.nonBlocking, fun serial cpu task =>
    ⟨fun nature => ⟨OpKind.build_construct H.build serial cpu task nature, ?_, ?_⟩, ?_⟩⟩
  · rw [Op.construct_issue, H.issue, h]
  · rw [Op.construct_status, H.status]
  · exact (Op.construct_withNature op serial cpu task .BLK .NONBLK).symm

/-- `MPI_Reduce_scatter` takes its count from the receive side and its type from the send side. -/
theorem issue_calls_immediate_reduceScatter :
    ∃ s, (Environment.system demoBuild).Reaches (init demoBuild) explicitInit s ∧
      ∃ kind code args, ∃ op : Op,
        (ApiCall.reduceScatter 1 2 3 4 5 6).blocking ⟨7, 8⟩ s 0 (fun _ => MPI_SUCCESS) =
          .ok ([.process kind code .BLK args], MPI_SUCCESS) ∧
        (ApiCall.reduceScatter 1 2 3 4 5 6).nonBlocking ⟨7, 8⟩ s =
          .ok ([.process kind code .NONBLK args], MPI_SUCCESS) ∧
        kind.build .pointers ⟨7, 8⟩ ⟨kind, 0, 1⟩ 9 code .BLK args = some op ∧
        op.issue = some (.ireduceScatter 1 2 3 4 5 6) := by
  obtain ⟨s, hs, hb, hn⟩ : ∃ s,
      (Environment.system demoBuild).Reaches (init demoBuild) explicitInit s ∧
      s.isBlockingEnabledForCurrentThread 0 ∧ s.isNonBlockingEnabled :=
    ⟨_, .of_run (f := Environment.step demoBuild) (fun _ _ _ _ h => h) rfl, rfl, rfl⟩
  obtain ⟨kind, code, args, op, hblk, hnonblk, hbuild⟩ := issue_calls_immediate .pointers ⟨7, 8⟩ s 0
    (fun _ => MPI_SUCCESS) (c := .reduceScatter 1 2 3 4 5 6) rfl
  have H := (hbuild 1 0 9).1 .BLK
  exact ⟨s, hs, kind, code, args, _, hblk hb, hnonblk hn, H.1, H.2.1⟩

/-- Without blocking mode every function but `MPI_Alltoallw` is the native one. -/
theorem blocking_native_iff {c : ApiCall} (h : E.isBlockingEnabledForCurrentThread thread = false) :
    c.blocking K E thread native = .ok ([.native c], native c) ↔ c.isAlltoallw = false := by
  cases c with
  | alltoallw =>
    simp [ApiCall.blocking, mpiAlltoallw, h, ApiCall.isAlltoallw]
  | wait | waitall =>
    exact iff_of_true (waitCall_of_disabled E thread native h) rfl
  | _ => exact iff_of_true (blockingCall_of_disabled E thread native h) rfl

/-- A program that never enables the blocking mode can call `MPI_Alltoallv`. -/
theorem blocking_native_alltoallv :
    ∃ s, (Environment.system demoBuild).Reaches (init demoBuild) [.mpiInit MPI_SUCCESS 0 true] s ∧
      (ApiCall.alltoallv 1 2 3 4 5 6 7 8 9).blocking ⟨0, 0⟩ s 0 (fun _ => MPI_SUCCESS) =
        .ok ([.native (.alltoallv 1 2 3 4 5 6 7 8 9)], MPI_SUCCESS) := by
  obtain ⟨s, hs, h⟩ : ∃ s,
      (Environment.system demoBuild).Reaches (init demoBuild) [.mpiInit MPI_SUCCESS 0 true] s ∧
        s.isBlockingEnabledForCurrentThread 0 = false :=
    ⟨_, .of_run (f := Environment.step demoBuild) (fun _ _ _ _ h => h) rfl, rfl⟩
  exact ⟨s, hs, (blocking_native_iff ⟨0, 0⟩ s 0 (fun _ => MPI_SUCCESS) h).2 rfl⟩

theorem alltoallw_not_native :
    ∃ s, (Environment.system demoBuild).Reaches (init demoBuild) [.mpiInit MPI_SUCCESS 0 true] s ∧
      s.isBlockingEnabledForCurrentThread 0 = false ∧
      (ApiCall.alltoallw 1 2 3 4 5 6 7 8 9).blocking ⟨0, 0⟩ s 0 (fun _ => MPI_SUCCESS) =
        .error "TAMPI: MPI_Alltoallw not supported" ∧
      ¬ ∀ c : ApiCall, c.blocking ⟨0, 0⟩ s 0 (fun _ => MPI_SUCCESS) =
        .ok ([.native c], MPI_SUCCESS) := by
  refine ⟨_, .of_run (f := Environment.step demoBuild) (fun _ _ _ _ h => h) rfl, rfl, rfl, ?_⟩
  intro h
  cases h (.alltoallw 1 2 3 4 5 6 7 8 9)

end

end Tampi
