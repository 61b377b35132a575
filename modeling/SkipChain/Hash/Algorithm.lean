import SkipChain.Hash.Blake3
import SkipChain.Hash.Sha256
/-!
The hash functions that a ledger, its paths and its morsels can be computed with.
-/
namespace SkipChain

inductive Algorithm where
  | sha256
  | blake3
  deriving DecidableEq, Repr

instance : Inhabited Algorithm := ⟨.sha256⟩

inductive AlgorithmError where
  | name (text : String)
  | code (n : UInt8)
  deriving DecidableEq, Repr

namespace AlgorithmError

def message : AlgorithmError → String
  | name text => s!"unknown hash algorithm: {Text.quoted text}"
  | code n => s!"unknown hash algorithm code: {n.toNat}"

def kind (_ : AlgorithmError) : ErrorKind := .malformedInput

end AlgorithmError

namespace Algorithm

def name : Algorithm → String
  | sha256 => "SHA-256"
  | blake3 => "BLAKE3"

instance : ToString Algorithm := ⟨name⟩

def code : Algorithm → UInt8
  | sha256 => 1
  | blake3 => 2

def ofCode (code : UInt8) : Except AlgorithmError Algorithm :=
  if code = 1 then .ok sha256
  else if code = 2 then .ok blake3
  else .error (.code code)

def ofName? (text : String) : Option Algorithm :=
  if text = sha256.name then some sha256
  else if text = blake3.name then some blake3
  else none

/-- The algorithm that a person may mean: letters of either case, an underscore for the hyphen, and
no hyphen at all in SHA256. -/
def parse (text : String) : Except AlgorithmError Algorithm :=
  let plain := text.map fun c => if c = '_' then '-' else c.toUpper
  if plain = "SHA-256" ∨ plain = "SHA256" then .ok sha256
  else if plain = "BLAKE3" then .ok blake3
  else .error (.name text)

def digest : Algorithm → Hash
  | sha256 => Sha256.hash
  | blake3 => Blake3.hash

end Algorithm

end SkipChain
