/-
# Dictionary word references

Resolves a word address: through the operation's dictionary if it has words of its
own, else among the built-in words and transforms.
-/
import Mbrotli.Shared.DecodeDictionary

namespace Mbrotli

/-- What the build fixes: the embedded built-in words, and the bytes of a `Tables`,
which the compiler decides. -/
structure Program where
  builtinWords : ℕ → UInt8
  tablesSize : ℕ

/-- What every call of an operation is given besides its buffers. -/
structure Env where
  program : Program
  config : DecoderConfig
  dictionary : Option DictionaryRef

namespace Env

def prefixLen (env : Env) : ℕ := match env.dictionary with
  | none => 0
  | some d => d.prefixLen

def prefixRun (env : Env) (offset : ℕ) : List UInt8 := match env.dictionary with
  | none => []
  | some d => d.prefixRun offset

def builtinWord (env : Env) (address length : ℕ) : Except DecodeError (List UInt8) :=
  if length < 4 ∨ 24 < length then .error (.invalidData .dictionaryReference)
  else
    let bits := builtinSizeBitsByLength.getD length 0
    match Transform.builtin (address >>> bits) with
    | none => .error (.invalidData .dictionaryReference)
    | some transform =>
      let offset := builtinOffsetsByLength.getD length 0 + address % 2 ^ bits * length
      .ok (transform.apply ((List.range length).map fun i => env.program.builtinWords (offset + i)))

/-- `dictionary::resolve`: the bytes of the word `address` names. -/
def resolveWord (env : Env) (address length context : ℕ) : Except DecodeError (List UInt8) :=
  match env.dictionary.bind DictionaryRef.customWord with
  | some customWord => customWord address length context
  | none => env.builtinWord address length

end Env
end Mbrotli
