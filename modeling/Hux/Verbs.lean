import Mathlib.Data.Nat.Bitwise
import Hux.Types

/-!
# The adapter, as verbs show it

What `RdmaProvider` uses of `infiniband/verbs.h`: work requests, completions and
the queue pairs they pass through. The adapter completes the work requests of
one queue pair in the order they were posted, each at most once; which of them,
with what status and how the queue pairs mix is its own choice.
-/

namespace Hux.Rdma

/-- `ibv_wc_status`, in the order of its numbers. -/
inductive WcStatus
  | success | locLenErr | locQpOpErr | locEecOpErr | locProtErr | wrFlushErr | mwBindErr
  | badRespErr | locAccessErr | remInvReqErr | remAccessErr | remOpErr | retryExcErr
  | rnrRetryExcErr | locRddViolErr | remInvRdReqErr | remAbortErr | invEecnErr | invEecStateErr
  | fatalErr | respTimeoutErr | generalErr | tmErr | tmRndvIncomplete
  deriving DecidableEq, Repr

def WcStatus.number (s : WcStatus) : Int := s.ctorIdx

inductive WrOpcode
  | rdmaWrite | rdmaRead | send
  deriving DecidableEq, Repr

inductive WcOpcode
  | rdmaWrite | rdmaRead | send | recv | recvRdmaWithImm
  deriving DecidableEq, Repr

def WrOpcode.completed : WrOpcode → WcOpcode
  | .rdmaWrite => .rdmaWrite
  | .rdmaRead => .rdmaRead
  | .send => .send

/-- `ibv_send_wr` with its one `ibv_sge`. -/
structure WorkRequest where
  wrId : Nat
  opcode : WrOpcode
  signalled : Bool
  addr : Nat
  length : Nat
  lkey : Nat
  remoteAddr : Nat := 0
  rkey : Nat := 0
  deriving DecidableEq, Repr

/-- `ibv_wc`; the immediate value in host order. -/
structure Wc where
  wrId : Nat
  qpNum : Nat
  status : WcStatus
  opcode : WcOpcode
  immData : Nat := 0
  deriving DecidableEq, Repr

/-- `ibv_mr`. -/
structure Mr where
  lkey : Nat
  rkey : Nat
  deriving DecidableEq, Repr

/-! ## Queue pairs -/

/-- `ibv_qp`, from the adapter's side. -/
structure Qp where
  /-- Every work request taken, oldest first. -/
  sends : List WorkRequest := []
  /-- Those before this place complete no more. -/
  delivered : Nat := 0
  /-- Receives posted and not used up. -/
  receives : Nat := 0
  deriving DecidableEq, Repr

/-- The queue pairs by number. -/
abbrev Adapter := Nat → Qp

/-- What the adapter puts next into the completion queue. -/
inductive Delivery
  /-- The completion of a work request, so many places beyond those delivered. -/
  | sent (num skip : Nat) (status : WcStatus)
  | received (num : Nat) (status : WcStatus) (imm : Option Nat)
  deriving DecidableEq, Repr

namespace Adapter

def post (a : Adapter) (num : Nat) (wr : WorkRequest) : Adapter :=
  Function.update a num { a num with sends := (a num).sends ++ [wr] }

def postRecv (a : Adapter) (num : Nat) : Adapter :=
  Function.update a num { a num with receives := (a num).receives + 1 }

def deliver (a : Adapter) : Delivery → Option (Wc × Adapter)
  | .sent num skip status =>
    match (a num).sends[(a num).delivered + skip]? with
    | some wr =>
      some (⟨wr.wrId, num, status, wr.opcode.completed, 0⟩,
        Function.update a num { a num with delivered := (a num).delivered + skip + 1 })
    | none => none
  | .received num status imm =>
    if (a num).receives = 0 then none
    else
      some (⟨2 ^ 63, num, status, if imm.isSome then .recvRdmaWithImm else .recv, imm.getD 0⟩,
        Function.update a num { a num with receives := (a num).receives - 1 })

def deliverAll (a : Adapter) : List Delivery → Option (List Wc × Adapter)
  | [] => some ([], a)
  | d :: rest =>
    match a.deliver d with
    | some (w, a') => (a'.deliverAll rest).map fun x => (w :: x.1, x.2)
    | none => none

end Adapter

/-! ## Work request ids -/

/-- Marks a completion of the receive queue. -/
def kRecvWrId : Nat := 2 ^ 63

/-- What `verify_path` sends under. -/
def kVerifyWrId : Nat := 2 ^ 62

def kQpShift : Nat := 48

def makeWrId (qpIndex seq : Nat) : Nat :=
  u64 (qpIndex <<< kQpShift) ||| (seq &&& (2 ^ kQpShift - 1))

def wrQpIndex (id : Nat) : Nat := (id >>> kQpShift) &&& 0x7fff

def wrSeq (id : Nat) : Nat := id &&& (2 ^ kQpShift - 1)

section
variable {i seq : Nat}

/-- Sixteen bits of the index and 48 of the number are kept. -/
theorem makeWrId_eq (i seq : Nat) : makeWrId i seq = i % 2 ^ 16 * 2 ^ 48 + seq % 2 ^ 48 := by
  have index : u64 (i <<< 48) = (i % 2 ^ 16) <<< 48 := by
    rw [u64, Nat.shiftLeft_eq, Nat.shiftLeft_eq, ← Nat.mul_mod_mul_right, ← pow_add]
  unfold makeWrId kQpShift
  rw [Nat.and_two_pow_sub_one_eq_mod, index,
    ← Nat.shiftLeft_add_eq_or_of_lt (Nat.mod_lt _ (by decide)), Nat.shiftLeft_eq]

theorem wrSeq_makeWrId (i seq : Nat) : wrSeq (makeWrId i seq) = seq % 2 ^ 48 := by
  unfold wrSeq kQpShift
  rw [makeWrId_eq, Nat.and_two_pow_sub_one_eq_mod]
  omega

theorem wrQpIndex_makeWrId (i seq : Nat) : wrQpIndex (makeWrId i seq) = i % 2 ^ 15 := by
  have mask : (0x7fff : Nat) = 2 ^ 15 - 1 := rfl
  unfold wrQpIndex kQpShift
  rw [makeWrId_eq, mask, Nat.and_two_pow_sub_one_eq_mod, Nat.shiftRight_eq_div_pow]
  omega

theorem makeWrId_eq_kVerifyWrId :
    makeWrId i seq = kVerifyWrId ↔ i % 2 ^ 16 = 2 ^ 14 ∧ seq % 2 ^ 48 = 0 := by
  rw [makeWrId_eq, kVerifyWrId]
  omega

theorem makeWrId_and_kRecvWrId : makeWrId i seq &&& kRecvWrId = 0 ↔ i % 2 ^ 16 < 2 ^ 15 := by
  have bit : (makeWrId i seq).testBit 63 = decide (2 ^ 15 ≤ i % 2 ^ 16) := by
    rw [Nat.testBit_eq_decide_div_mod_eq, makeWrId_eq, decide_eq_decide]
    omega
  rw [kRecvWrId, Nat.and_two_pow, bit]
  simp

end

/-- Whether a completion is of a transfer, and not of a path's verification or
of a receive. -/
def Wc.transfer (w : Wc) : Bool := w.wrId ≠ kVerifyWrId && (w.wrId &&& kRecvWrId) = 0

theorem transfer_makeWrId {w : Wc} {i seq : Nat} (hi : i < 2 ^ 14)
    (id : w.wrId = makeWrId i seq) : w.transfer = true := by
  have data : makeWrId i seq ≠ kVerifyWrId := by
    rw [ne_eq, makeWrId_eq_kVerifyWrId]
    omega
  have sent : makeWrId i seq &&& kRecvWrId = 0 := makeWrId_and_kRecvWrId.mpr (by omega)
  simp [Wc.transfer, id, data, sent]

end Hux.Rdma
