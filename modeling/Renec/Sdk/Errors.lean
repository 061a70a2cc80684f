import Mathlib

/-!
# Errors

The error enumerations of the SDK, with the source's variants in the source's order. An error of
a program is an `InstructionError`; the transaction that contains the instruction fails with the
index of the instruction and that error.
-/

namespace Renec

/-- Reasons the runtime might have rejected an instruction. -/
inductive InstructionError where
  | genericError
  | invalidArgument
  | invalidInstructionData
  | invalidAccountData
  | accountDataTooSmall
  | insufficientFunds
  | incorrectProgramId
  | missingRequiredSignature
  | accountAlreadyInitialized
  | uninitializedAccount
  | unbalancedInstruction
  | modifiedProgramId
  | externalAccountLamportSpend
  | externalAccountDataModified
  | readonlyLamportChange
  | readonlyDataModified
  | duplicateAccountIndex
  | executableModified
  | rentEpochModified
  | notEnoughAccountKeys
  | accountDataSizeChanged
  | accountNotExecutable
  | accountBorrowFailed
  | accountBorrowOutstanding
  | duplicateAccountOutOfSync
  | custom (code : ℕ)
  | invalidError
  | executableDataModified
  | executableLamportChange
  | executableAccountNotRentExempt
  | unsupportedProgramId
  | callDepth
  | missingAccount
  | reentrancyNotAllowed
  | maxSeedLengthExceeded
  | invalidSeeds
  | invalidRealloc
  | computationalBudgetExceeded
  | privilegeEscalation
  | programEnvironmentSetupFailure
  | programFailedToComplete
  | programFailedToCompile
  | immutable
  | incorrectAuthority
  | borshIoError (message : String)
  | accountNotRentExempt
  | invalidAccountOwner
  | arithmeticOverflow
  | unsupportedSysvar
  | illegalOwner
  | maxAccountsDataSizeExceeded
  | activeVoteAccountClose
  deriving DecidableEq

/-- Reasons a transaction might be rejected. -/
inductive TransactionError where
  | accountInUse
  | accountLoadedTwice
  | accountNotFound
  | programAccountNotFound
  | insufficientFundsForFee
  | invalidAccountForFee
  | alreadyProcessed
  | blockhashNotFound
  | instructionError (index : ℕ) (error : InstructionError)
  | callChainTooDeep
  | missingSignatureForFee
  | invalidAccountIndex
  | signatureFailure
  | invalidProgramForExecution
  | sanitizeFailure
  | clusterMaintenance
  | accountBorrowOutstanding
  | wouldExceedMaxBlockCostLimit
  | unsupportedVersion
  | invalidWritableAccount
  | wouldExceedMaxAccountCostLimit
  | wouldExceedMaxAccountDataCostLimit
  | tooManyAccountLocks
  | addressLookupTableNotFound
  | invalidAddressLookupTableOwner
  | invalidAddressLookupTableData
  | invalidAddressLookupTableIndex
  | invalidRentPayingAccount
  | wouldExceedMaxVoteCostLimit
  deriving DecidableEq

end Renec
