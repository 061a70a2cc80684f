import Renec.Runtime.Calls

/-!
# Executions of programs

What programs do to the invoke context while an instruction runs, as a tree. A program changes
accounts, in any way, and calls other programs, which do the same, until it returns. A `Script` is
one such course of events: it fixes what is written and called and in which order, so that the
behaviours of all programs are covered by all scripts.
-/

namespace Renec

open Exec InvokeContext

/-- The course of events in the frame of a program. -/
inductive Script where
  /-- The program returns. -/
  | done (result : Except InstructionError Unit)
  /-- The program changes the contents of an account of the transaction. -/
  | write (index : ℕ) (account : Account) (next : Script)
  /-- The program calls another one. -/
  | invoke (instruction : Instruction) (signers : List Pubkey) (before : List (ℕ × Account))
      (callee next : Script)

namespace InvokeContext

/-- Change the contents of an account. -/
def writeAccount (ctx : InvokeContext) (index : ℕ) (account : Account) : InvokeContext :=
  { ctx with accounts := ctx.accounts.modify index fun p ↦ (p.1, account) }

def writeAccounts (ctx : InvokeContext) (writes : List (ℕ × Account)) : InvokeContext :=
  writes.foldl (fun ctx p ↦ ctx.writeAccount p.1 p.2) ctx

/-- A cross-program invocation. -/
def invoke (entrypoint : Invoke Unit) (instruction : Instruction) (signers : List Pubkey)
    (before : List (ℕ × Account)) : Invoke Unit := do
  let (message, callerWritePrivileges, programIndices) ←
    ofOutcome fun ctx ↦ ctx.createMessage instruction signers
  let indices ← ofOutcome fun ctx ↦ ctx.accountIndices message
  modify fun ctx ↦ ctx.writeAccounts before
  let compiled ← ofOption message.instructions.head?
  processInstruction entrypoint (.legacy message) compiled programIndices indices
    callerWritePrivileges

end InvokeContext

namespace Script

/-- Run a script in the frame of its program. -/
def run : Script → Invoke Unit
  | done (.ok _) => pure ()
  | done (.error e) => throw e
  | write index account next => do
    modify fun ctx ↦ ctx.writeAccount index account
    next.run
  | invoke instruction signers before callee next => do
    InvokeContext.invoke callee.run instruction signers before
    next.run

def programIds : Script → Set Pubkey
  | done _ => ∅
  | write _ _ next => next.programIds
  | invoke instruction _ _ callee next =>
    {instruction.programId} ∪ callee.programIds ∪ next.programIds

/-- No call has write privileges beyond those of its caller, which are given. -/
def Contained (writable : Set Pubkey) : Script → Prop
  | done _ => True
  | write _ _ next => next.Contained writable
  | invoke instruction _ _ callee next =>
    (∀ m, Message.new [instruction] none = some m →
      {key | m.WritableKey key} ⊆ writable ∧ callee.Contained {key | m.WritableKey key}) ∧
    next.Contained writable

end Script

namespace InvokeContext

variable {ctx ctx' : InvokeContext} {entrypoint : Invoke Unit} {ix : Instruction}
  {signers : List Pubkey} {before : List (ℕ × Account)}

lemma accountKeys_writeAccount (ctx : InvokeContext) (index : ℕ) (account : Account) :
    (ctx.writeAccount index account).accountKeys = ctx.accountKeys := by
  refine List.ext_getElem? fun i ↦ ?_
  rw [accountKeys, accountKeys, writeAccount, List.getElem?_map, List.getElem?_map,
    List.getElem?_modify]
  cases ctx.accounts[i]? with
  | none => rfl
  | some p =>
    show some (if index = i then (p.1, account) else p).1 = some p.1
    split_ifs <;> rfl

lemma writeAccounts_eq (ctx : InvokeContext) (writes : List (ℕ × Account)) :
    ∃ accounts, ctx.writeAccounts writes = { ctx with accounts := accounts } ∧
      (ctx.writeAccounts writes).accountKeys = ctx.accountKeys := by
  induction writes generalizing ctx with
  | nil => exact ⟨ctx.accounts, rfl, rfl⟩
  | cons p writes ih =>
    obtain ⟨accounts, heq, hkeys⟩ := ih (ctx.writeAccount p.1 p.2)
    exact ⟨accounts, heq, hkeys.trans (accountKeys_writeAccount ctx p.1 p.2)⟩

lemma invoke_eq_ok {u : Unit}
    (h : invoke entrypoint ix signers before ctx = some (.ok u, ctx')) :
    ∃ m privileges programIndices indices compiled,
      ctx.createMessage ix signers = .ok (m, privileges, programIndices) ∧
      ctx.accountIndices m = .ok indices ∧ m.instructions.head? = some compiled ∧
      processInstruction entrypoint (.legacy m) compiled programIndices indices privileges
        (ctx.writeAccounts before) = some (.ok u, ctx') := by
  simp only [invoke, bind_eq_ok, ofOutcome_eq_ok, modify_eq_ok, ofOption_eq_ok] at h
  obtain ⟨⟨m, privileges, programIndices⟩, _, ⟨hcreate, rfl⟩, indices, _, ⟨hlocate, rfl⟩, _, _, rfl,
    compiled, _, ⟨hcompiled, rfl⟩, h⟩ := h
  exact ⟨m, privileges, programIndices, indices, compiled, hcreate, hlocate, hcompiled, h⟩

end InvokeContext

end Renec
