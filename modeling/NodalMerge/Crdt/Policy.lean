import NodalMerge.Crdt.Op

namespace NodalMerge

inductive PolicyDefault where
  | allowAll
  | denyAll
  deriving DecidableEq

/-- One access rule. Only the write side is enforced by the engine; the other keys are
stored and serialized with it. -/
structure PolicyRule where
  pathGlob : String
  canWrite : List PublicKey
  canRead : List PublicKey
  canDerive : List PublicKey

structure Policy where
  rules : List PolicyRule
  fallback : PolicyDefault

/-- The zero-config policy: no rules, allow all writes. -/
def Policy.default : Policy := ⟨[], .allowAll⟩

/-- `str::as_bytes`. -/
def asBytes (text : String) : List UInt8 := text.toList.flatMap String.utf8EncodeChar

/-- The scan after `**`: try the rest of the pattern at every suffix. -/
def doubleStarScan (rest : List UInt8 → Bool) : List UInt8 → Bool
  | [] => rest []
  | byte :: txt => rest (byte :: txt) || doubleStarScan rest txt

/-- The scan after `*`: as `**`, but never past a `/`. -/
def starScan (rest : List UInt8 → Bool) : List UInt8 → Bool
  | [] => rest []
  | byte :: txt => rest (byte :: txt) || (byte != 47 && starScan rest txt)

/-- 42 is `*` and 47 is `/`; a separator right after `**` is skipped. -/
def globMatchesInner : List UInt8 → List UInt8 → Bool
  | [], txt => txt.isEmpty
  | 42 :: 42 :: 47 :: pat, txt => doubleStarScan (globMatchesInner pat) txt
  | 42 :: 42 :: pat, txt => doubleStarScan (globMatchesInner pat) txt
  | 42 :: pat, txt => starScan (globMatchesInner pat) txt
  | _ :: _, [] => false
  | pc :: pat, tc :: txt => tc == pc && globMatchesInner pat txt

def globMatches (pattern text : String) : Bool :=
  globMatchesInner (asBytes pattern) (asBytes text)

/-- The first rule whose glob matches decides; otherwise the fallback does. -/
def Policy.canWrite (policy : Policy) (key : String) (author : PublicKey) : Bool :=
  match policy.rules.find? (fun rule => globMatches rule.pathGlob key) with
  | some rule => rule.canWrite.contains author
  | none => policy.fallback == .allowAll

example : globMatches "intent/*" "intent/move" = true ∧
    globMatches "intent/*" "intent/nested/deep" = false ∧
    globMatches "world/**" "world/a/b" = true := by decide

end NodalMerge
