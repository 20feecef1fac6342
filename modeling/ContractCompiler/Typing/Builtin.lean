import ContractCompiler.Entry
import ContractCompiler.Typing.Scope

/-!
# Built-in types and names

What every program knows: the types of transactions, accounts, assets and applications, and
the names through which it reaches them.
-/

namespace ContractCompiler

/-- The numbers of the built-in types that rules refer to. -/
structure Builtin where
  hash : TypeId
  onComplete : TypeId
  transaction : TypeId
  appCall : TypeId
  global : TypeId
  bytesArray : TypeId
deriving DecidableEq, Repr

namespace Builtin

/-- What a call can ask to be done on completion, by value. -/
def onCompleteValues : List String :=
  ["NoOp", "OptIn", "CloseOut", "ClearState", "UpdateApplication", "DeleteApplication"]

/-- The hash algorithms, by value. -/
def hashValues : List String :=
  ["SHA256", "Keccak256", "SHA512_256"]

/-- The built-in function, and the number of its arguments. -/
def hashFunction : String × Nat := ("Hash", 2)

/-- Some members of type integer. -/
def uints (names : List String) : List (String × Field) :=
  names.map (·, .var .uint64)

/-- Some members of type byte string. -/
def byteStrings (names : List String) : List (String × Field) :=
  names.map (·, .var .bytes)

/-- Adds the built-in types to a table. -/
def install : StateM TypeTable Builtin := do
  let bytesArray ← TypeTable.arrayOf .bytes .uint64
  let _ ← TypeTable.arrayOf .uint64 .uint64
  let hash ← TypeTable.addEnum "Hash" hashValues
  let onComplete ← TypeTable.addEnum "OnComplete" onCompleteValues
  let stateSchema ← TypeTable.addStruct "StateSchema" none (uints ["NumUint", "NumByteSlice"])
  let state ← TypeTable.addStruct "State" none (uints ["OptedIn"])
  TypeTable.setAccessor state .bytes (.var .any)
  let assetParam ← TypeTable.addStruct "AssetParam" none
    (uints ["Total", "Decimals", "DefaultFrozen"] ++
      byteStrings ["UnitName", "Name", "URL", "MetadataHash", "ManagerAddr", "ReserveAddr",
        "FreezeAddr", "ClawbackAddr", "Creator"])
  let applicationParam ← TypeTable.addStruct "ApplicationParam" none
    (byteStrings ["ApprovalProgram", "ClearStateProgram"] ++
      [("GlobalStateSchema", Field.var stateSchema), ("LocalStateSchema", Field.var stateSchema)] ++
      uints ["ExtraProgramPages"])
  let assetHolding ← TypeTable.addStruct "AssetHolding" none
    (uints ["AssetBalance", "AssetFrozen"])
  let asset ← TypeTable.addStruct "Asset" none
    [("AssetHolding", Field.var assetHolding), ("AssetParam", Field.var assetParam)]
  let application ← TypeTable.addStruct "Application" none
    ([("Params", Field.var applicationParam)] ++ byteStrings ["Creator", "Address"] ++
      [("State", Field.var state)])
  let appStates ← TypeTable.arrayOf state application
  let holdings ← TypeTable.arrayOf assetHolding asset
  let account ← TypeTable.addStruct "Account" none
    (uints ["Balance", "MinBalance"] ++
      [("State", Field.var appStates), ("Assets", Field.var holdings)])
  let global ← TypeTable.addStruct "Global" none
    (uints ["MinTxnFee", "MinBalance", "MaxTxnLife", "GroupSize", "LogicSigVersion", "Round",
        "LatestTimestamp"] ++
      byteStrings ["ZeroAddress", "GroupID"] ++
      [("CurrentApplication", Field.var application)])
  let transaction ← TypeTable.addStruct "Transaction" none
    (uints ["Fee", "FirstValid", "FirstValidTime", "LastValid", "GroupIndex"] ++
      byteStrings ["TxID", "RekeyTo", "Note", "Lease", "Sender"])
  let _ ← TypeTable.addStruct "PaymentTransaction" (some transaction)
    (uints ["Amount"] ++ byteStrings ["Receiver", "CloseRemainderTo"])
  let _ ← TypeTable.addStruct "ParticipationTransaction" (some transaction)
    (byteStrings ["VotePK", "SelectionPK"] ++
      uints ["VoteFirst", "VoteLast", "VoteKeyDilution", "Nonparticipation"])
  let _ ← TypeTable.addStruct "AssetTransferTransaction" (some transaction)
    (uints ["AssetID", "Amount"] ++ byteStrings ["Receiver", "CloseTo"])
  let accounts ← TypeTable.arrayOf account .uint64
  let assets ← TypeTable.arrayOf asset .uint64
  let applications ← TypeTable.arrayOf application .uint64
  let scratch ← TypeTable.arrayOf .any .uint64
  let appCall ← TypeTable.addStruct "ApplicationCallTransaction" (some transaction)
    (uints ["ApplicationID"] ++
      [("OnCompletion", Field.var onComplete), ("Args", Field.var bytesArray),
        ("Accounts", Field.var accounts), ("Assets", Field.var assets),
        ("Applications", Field.var applications), ("Scratch", Field.var scratch),
        ("Params", Field.var applicationParam)])
  let _ ← TypeTable.addStruct "AssetConfigurationTransaction" (some transaction)
    (uints ["AssetID"] ++ [("Params", Field.var assetParam)])
  let _ ← TypeTable.addStruct "AssetFreezeTransaction" (some transaction)
    (uints ["AssetID", "Frozen"] ++ byteStrings ["Account"])
  let _ ← TypeTable.addStruct "InnerTransactionResult" none [("Logs", Field.var bytesArray)]
  return ⟨hash, onComplete, transaction, appCall, global, bytesArray⟩

/-- The table of built-in types, and the numbers of those that rules refer to. -/
def installed : Builtin × TypeTable :=
  install.run .initial

/-- The table of built-in types. -/
def types : TypeTable := installed.2

/-- The built-in types that rules refer to. -/
def ids : Builtin := installed.1

/-- The array of all transactions of a group, and the table with it. -/
def withGroup : TypeId × TypeTable :=
  (TypeTable.arrayOf ids.transaction .uint64).run types

/-- The types that a program is checked against. -/
def checkedTypes : TypeTable := withGroup.2

/-- The built-in names of a mode with their fields. Of two with one name the first counts. -/
def names (mode : Mode) : List (String × Field) :=
  [("Txn", Field.constant ids.appCall), ("TxnGroup", Field.constant withGroup.1),
    ("Global", Field.constant ids.global), ("true", Field.constant .uint64),
    ("false", Field.constant .uint64)] ++
  checkedTypes.sourceNames.map (·, Field.constant .type) ++
  hashValues.map (·, Field.constant ids.hash) ++
  (if mode.isApplication then onCompleteValues.map (·, Field.constant ids.onComplete) else []) ++
  [("args", Field.constant ids.bytesArray)]

/-- The scopes that a program starts with. -/
def scopes (mode : Mode) : Scopes :=
  (names mode).foldl (fun s (name, f) => s.declare name f) .empty

end Builtin

end ContractCompiler
