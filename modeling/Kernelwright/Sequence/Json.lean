import Kernelwright.Element.Json
import Kernelwright.Sequence.Basic

/-!
# Sequence layouts in JSON
-/

namespace Kernelwright

def Progression.toJson (p : Progression) : Json := .members
  [("start", p.start.toJson), ("stride", p.stride.toJson), ("aux", p.bound.toJson),
    ("decode", .text p.rule.tag)]

def SequenceLayout.toJson (l : SequenceLayout) : Json :=
  .members [("fields", .array (l.fields.map Progression.toJson))]

def Progression.ofJson : Decode Progression :=
  .record ["start", "stride", "aux", "decode"] fun room fs => do
    return ⟨← fs.required "start" Value.ofJson room, ← fs.required "stride" Value.ofJson room,
      ← fs.required "aux" Value.ofJson room,
      ← fs.required "decode" (.enumeration DecodeRule.ofTag?) room⟩

def SequenceLayout.ofJson : Decode SequenceLayout := .record ["fields"] fun room fs => do
  return ⟨← fs.required "fields" (.list Progression.ofJson) room⟩

end Kernelwright
