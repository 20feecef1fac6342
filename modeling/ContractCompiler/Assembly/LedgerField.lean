import ContractCompiler.Assembly.Opcode

/-!
# Fields of the ledger

What a program can read of its transaction and of the ledger, and under which name the stack
machine knows it.
-/

namespace ContractCompiler

/-- A member that the machine has a field for. -/
structure LedgerField where
  member : String
  field : String
  type : StackType
deriving DecidableEq, Repr

namespace LedgerField

/-- A member whose field has the same name. -/
def same (type : StackType) (name : String) : LedgerField := ⟨name, name, type⟩

/-- The fields of a transaction. -/
def transaction : List LedgerField :=
  [same .uint64 "Fee", same .uint64 "FirstValid", same .uint64 "FirstValidTime",
   same .uint64 "LastValid", same .uint64 "GroupIndex", same .bytes "TxID",
   same .bytes "RekeyTo", same .bytes "Note", same .bytes "Lease", same .bytes "Sender",
   same .bytes "Receiver", same .uint64 "Amount", same .bytes "CloseRemainderTo",
   same .bytes "VotePK", same .bytes "SelectionPK", same .uint64 "VoteFirst",
   same .uint64 "VoteLast", same .uint64 "VoteKeyDilution", same .uint64 "Nonparticipation",
   same .uint64 "ApplicationID", same .uint64 "OnCompletion"]

/-- The fields of the ledger as a whole. -/
def global : List LedgerField :=
  [same .uint64 "MinTxnFee", same .uint64 "MinBalance", same .uint64 "MaxTxnLife",
   same .bytes "ZeroAddress", same .uint64 "GroupSize", same .uint64 "LogicSigVersion",
   same .uint64 "Round", same .uint64 "LatestTimestamp", same .bytes "GroupID"]

/-- The fields of the application that runs. -/
def currentApplication : List LedgerField :=
  [⟨"Address", "CurrentApplicationAddress", .bytes⟩, ⟨"Creator", "CreatorAddress", .bytes⟩]

/-- The field of a member in a table. -/
def find? (table : List LedgerField) (member : String) : Option LedgerField :=
  table.find? (·.member == member)

end LedgerField

/-- A member of a transaction that is an array: the field of its elements, the field that
counts them, and what they are. -/
structure LedgerArray where
  member : String
  elements : String
  count : String
  type : StackType
deriving DecidableEq, Repr

namespace LedgerArray

/-- The arguments of an application call. -/
def arguments : LedgerArray := ⟨"Args", "ApplicationArgs", "NumAppArgs", .bytes⟩

/-- The arrays of a transaction. -/
def all : List LedgerArray :=
  [arguments,
   ⟨"Accounts", "Accounts", "NumAccounts", .bytes⟩,
   ⟨"Assets", "Assets", "NumAssets", .uint64⟩,
   ⟨"Applications", "Applications", "NumApplications", .uint64⟩]

/-- The array of a member. -/
def find? (member : String) : Option LedgerArray :=
  all.find? (·.member == member)

end LedgerArray

/-- The types of transactions and their numbers. -/
def transactionCodes : List (String × UInt64) :=
  [("PaymentTransaction", 1), ("ParticipationTransaction", 2),
   ("AssetConfigurationTransaction", 3), ("AssetTransferTransaction", 4),
   ("AssetFreezeTransaction", 5), ("ApplicationCallTransaction", 6)]

/-- The number of a type of transactions. -/
def transactionCode? (name : String) : Option UInt64 :=
  transactionCodes.lookup name

end ContractCompiler
