import SlotGrad.Proofs.RefusedValues
import SlotGrad.Proofs.SeparateSaves

/-!
# Saves that fail

What is left of the files when a save fails depends on where a value is refused.  A value
without a tree is refused before any file is opened, so that all files stay as they are.  What
only the writer refuses, a setting of the wrong kind or an integer with too many digits, is
refused when the document is open already: what was saved there before is lost, and what is left
is not a document.

## Main results

* `Saved.failed_save` — what is left of the files when a value is refused.
* `Saved.refused_setting_destroys_document` — a net that was saved is lost when another one, with an
  array for a weight decay, is saved over it.
-/

namespace SlotGrad

variable {F : Type}

namespace Saved

/-! ### What is left of the files -/

section

variable [Interchange F]

omit [Interchange F] in
/-- A place that a path with a suffix leads to can be written, whatever other files there are. -/
theorem write_of_locate {p : FilePath} {suffix : String} (hsuffix : suffix ≠ "") {d d' : Directory}
    {there : FilePath} (h : d.locate (p.withSuffix suffix) = .ok there) (hroom : d'.room = d.room)
    (content : Bytes) :
    d'.write (p.withSuffix suffix) content = .ok (d'.put there content) := by
  obtain ⟨dirs, stem, hpath⟩ := p.exists_withSuffix
  rw [hpath] at h ⊢
  obtain ⟨-, -, outer, houter, rfl⟩ := Directory.locate_append_eq_ok.mp h
  have hne : stem ++ suffix ≠ "" := by simp [hsuffix]
  have hfile : Directory.isDirectory (outer ++ [stem ++ suffix]) = false := by
    cases outer <;> simp [Directory.isDirectory, FilePath.workingName, hne]
  exact Directory.write_eq_ok.mpr
    ⟨_, (Directory.locate_append_congr houter hroom _).trans h, hfile, rfl⟩

variable {c : CompiledNet F} {s : Store F} {p : FilePath} {d : Directory}

/-- A net that has no document leaves all files as they are. -/
theorem save_of_not_encodable (h : ¬c.Encodable s) : ∃ e, save c s p d = .stopped d e := by
  unfold save
  cases hnet : NetDocument.ofNet c s with
  | error e => exact ⟨e, rfl⟩
  | ok made => exact absurd (NetDocument.exists_ofNet_iff.mp ⟨made, hnet⟩) h

/-- A net that the writer does not take leaves the part of its document that was written. -/
theorem save_of_not_writable (hc : c.Encodable s) (hwritable : ¬c.Writable s)
    {there : FilePath} (hthere : d.locate (p.withSuffix documentSuffix) = .ok there) :
    ∃ es e, (∀ {j : Json F} {w : Weights}, NetDocument.ofNet c s = .ok (j, w) → j = .object es) ∧
      (Json.object es).write.error = some e ∧
      save c s p d = .stopped (d.put there (textBytes (Json.object es).write.state)) e := by
  obtain ⟨⟨j, w⟩, hnet⟩ := NetDocument.exists_ofNet_iff.mpr hc
  obtain ⟨⟨es, rfl⟩, hwhole⟩ := NetDocument.whole_ofNet_iff hnet
  have hstop : (Json.object es).write.error ≠ none := fun h =>
    hwritable (hwhole.mp ((Json.writeAt_error_iff 0 _).mp h))
  obtain ⟨e, he⟩ := Option.ne_none_iff_exists'.mp hstop
  refine ⟨es, e, fun h => ?_, he, ?_⟩
  · rw [hnet] at h
    cases h
    rfl
  · unfold save writeDocument
    rw [hnet]
    dsimp only
    rw [writeFile_of_ok (write_of_locate (by decide) hthere rfl _), Outcome.done_andThen, he]
    rfl

/-- A net whose document is cut off cannot be loaded. -/
theorem load_of_not_writable [Arith F] (hlawful : c.Lawful s) (hc : c.Encodable s)
    (hwritable : ¬c.Writable s) {there : FilePath}
    (hthere : d.locate (p.withSuffix documentSuffix) = .ok there) (r : Registry) :
    load (F := F) r p (save c s p d).state = .error (.fault .badValue) := by
  obtain ⟨es, e, hdocument, he, hsave⟩ := save_of_not_writable hc hwritable hthere
  obtain ⟨⟨j, w⟩, hnet⟩ := NetDocument.exists_ofNet_iff.mpr hc
  have hdoubles := NetDocument.doubles_ofNet hlawful hnet
  rw [hdocument hnet] at hdoubles
  have hes : ∀ e ∈ es, e.2.Doubles := by
    cases hdoubles
    assumption
  have hread : (save c s p d).state.read (p.withSuffix documentSuffix)
      = .ok (textBytes (Json.object es).write.state) := by
    obtain ⟨dirs, stem, hpath⟩ := p.exists_withSuffix
    have hwrite := write_of_locate (by decide) hthere rfl (textBytes (Json.object es).write.state)
    rw [hsave]
    rw [hpath] at hwrite ⊢
    exact Directory.read_write hwrite
  unfold load readDocument
  rw [hread, ok_bind, bytesText?_textBytes, Fallible.ofOption_some, ok_bind,
    Json.read?_cut hes (by rw [he]; simp)]
  rfl

/-- A net whose values are all taken is saved wherever its files can lie. -/
theorem save_of_writable (hc : c.Encodable s) (hwritable : c.Writable s)
    (hdocument : ∃ place, d.locate (p.withSuffix documentSuffix) = .ok place)
    (hweights : ∃ place, d.locate (p.withSuffix weightsSuffix) = .ok place) :
    (save c s p d).error = none := by
  obtain ⟨⟨j, w⟩, hnet⟩ := NetDocument.exists_ofNet_iff.mpr hc
  have hdone : j.write.error = none :=
    (Json.writeAt_error_iff 0 j).mpr ((NetDocument.whole_ofNet_iff hnet).2.mpr hwritable)
  obtain ⟨there, hthere⟩ := hdocument
  obtain ⟨other, hother⟩ := hweights
  unfold save writeDocument writeWeights
  rw [hnet]
  dsimp only
  rw [writeFile_of_ok (write_of_locate (by decide) hthere rfl _), Outcome.done_andThen, hdone]
  change (if _ then _ else _ : Outcome Directory).error = none
  split
  · rfl
  · rw [writeFile_of_ok (write_of_locate (by decide) hother (by rfl) _), Outcome.error_done]

/-- **A save that a value fails.**  If a parameter value, the metadata or a constant has no
tree, then nothing changes.  If they have trees and the writer refuses something, a setting of
the wrong kind or an integer with too many digits wherever it is, then the document is
overwritten with the part before it, no other file changes, and the net cannot be loaded from
there any more, whatever was saved there before.  If all values have trees and the writer
refuses nothing, then no value fails the save. -/
theorem failed_save [Arith F] (hlawful : c.Lawful s) :
    (¬c.Encodable s → ∃ e, save c s p d = .stopped d e) ∧
    (c.Encodable s → ¬c.Writable s →
      ∀ there, d.locate (p.withSuffix documentSuffix) = .ok there →
        (save c s p d).error ≠ none ∧
        (∀ place, place ≠ there → (save c s p d).state.find? place = d.find? place) ∧
        ∀ r : Registry, load (F := F) r p (save c s p d).state = .error (.fault .badValue)) ∧
    (c.Encodable s → c.Writable s →
      (∃ place, d.locate (p.withSuffix documentSuffix) = .ok place) →
      (∃ place, d.locate (p.withSuffix weightsSuffix) = .ok place) →
        (save c s p d).error = none) := by
  refine ⟨save_of_not_encodable, fun hc hwritable there hthere => ?_, save_of_writable⟩
  obtain ⟨es, e, -, -, hsave⟩ := save_of_not_writable hc hwritable hthere
  refine ⟨by rw [hsave]; simp, fun place hplace => ?_,
    load_of_not_writable hlawful hc hwritable hthere⟩
  rw [hsave, Outcome.state_stopped, Directory.find?_put_of_ne hplace]

end

/-! ### An array for a weight decay -/

section

/-- Two numbers. -/
def decays : Tensor ℚ := ⟨.float64, Grid.ofList [(1 : ℚ), 2]⟩

/-- A parameter alone whose weight decay is an array. -/
def decayedParameter : List (Node ℚ) :=
  [⟨0, { bareLabel with name := some "v" },
    .param ⟨.real 4, .array decays, .integer 1, .gradient⟩⟩]

/-- Its net. -/
def decayedNet : CompiledNet ℚ :=
  { loneNet with
    params := [⟨0, "v", .array decays, .integer 1, "", "gradient"⟩]
    diagnostics := [⟨0, 1, "v"⟩]
    names := ["v"]
    nodes := [some ⟨0, .param, "Param(v)"⟩] }

theorem compile_decayedParameter :
    compileNodes [] (fun _ => true) decayedParameter none plainOptions
      = .ok ⟨decayedNet, loneStore 4, []⟩ := rfl

theorem lawful_decayedNet : decayedNet.Lawful (loneStore 4) := by
  have hfour : IsDouble (4 : ℚ) := (isDouble_and_isSingle 4 (by simp)).1
  have hdecays : decays.Exact := by
    have hall : ∀ x ∈ [(1 : ℚ), 2], IsDouble x :=
      List.forall_mem_cons.mpr ⟨(isDouble_and_isSingle 1 (by simp)).1,
        List.forall_mem_singleton.mpr (isDouble_and_isSingle 2 (by simp)).1⟩
    exact hall
  refine ⟨by decide, by decide, by decide, ?_, ?_, .none, fun i hi => by cases hi⟩
  · refine List.forall_mem_singleton.mpr fun v hv => ?_
    cases hv
    exact .real hfour
  · exact List.forall_mem_singleton.mpr ⟨.array hdecays, .integer 1⟩

theorem encodable_decayedNet : decayedNet.Encodable (loneStore 4) :=
  ⟨List.forall_mem_singleton.mpr ⟨_, rfl, .real 4⟩, .none, fun i hi => by cases hi⟩

theorem not_writable_decayedNet : ¬decayedNet.Writable (loneStore 4) := by
  intro h
  have hdecay := (h.settings _ (List.mem_singleton_self _)).1
  cases hdecay

theorem locate_document_m {d : Directory} (hroom : Directory.longestName < d.room) :
    d.locate (FilePath.withSuffix ["m"] documentSuffix)
      = .ok ["", FilePath.stem "m" ++ documentSuffix] :=
  Directory.locate_name hroom (by unfold FileName; decide)

theorem failed_save_decayed_parameter :
    decayedNet.Lawful (loneStore 4) ∧ decayedNet.Encodable (loneStore 4) ∧
      ¬decayedNet.Writable (loneStore 4) ∧
      load (F := ℚ) Registry.builtin ["m"] (save decayedNet (loneStore 4) ["m"] .empty).state
        = .error (.fault .badValue) :=
  ⟨lawful_decayedNet, encodable_decayedNet, not_writable_decayedNet,
    ((failed_save lawful_decayedNet).2.1 encodable_decayedNet not_writable_decayedNet _
      (locate_document_m Directory.lt_room_empty)).2.2 Registry.builtin⟩

/-- **A refused setting destroys a document.**  A net is saved and can be loaded.  Another net,
whose parameter has an array for a weight decay, is saved over it: that fails, and nothing can
be loaded any more. -/
theorem refused_setting_destroys_document :
    ∃ first second, compileNodes [] (fun _ => true) (loneParameter 3) none plainOptions
      = .ok first ∧
      compileNodes [] (fun _ => true) decayedParameter none plainOptions = .ok second ∧
      ∃ d : Directory, save first.net first.store ["m"] .empty = .done d ∧
        (∃ (c : CompiledNet ℚ) (t : Store ℚ), load Registry.builtin ["m"] d = .ok (c, t) ∧
          t.content 0 = .real 3) ∧
        (save second.net second.store ["m"] d).error
          = some (.unwritable "<class 'numpy.ndarray'>") ∧
        load (F := ℚ) Registry.builtin ["m"] (save second.net second.store ["m"] d).state
          = .error (.fault .badValue) := by
  obtain ⟨content, hsave⟩ := exists_save_loneNet 3 "m" (by unfold FileName; decide)
  have hthree : IsDouble (3 : ℚ) := (isDouble_and_isSingle 3 (by simp)).1
  have hfirst := hsave .empty Directory.lt_room_empty
  have hload := load_save (r := Registry.builtin) (lawful_loneNet hthree) (fun i hi => by cases hi)
    (congrArg Outcome.error hfirst) (Directory.fits_stem Directory.lt_room_empty (by decide))
  rw [hfirst] at hload
  -- The directory after the first save has the room of the empty one.
  have hthere := locate_document_m
    (d := Directory.empty.put ["", FilePath.stem "m" ++ documentSuffix] content)
    Directory.lt_room_empty
  refine ⟨_, _, compile_loneParameter 3, compile_decayedParameter, _, hfirst, ⟨_, _, hload, rfl⟩,
    ?_, ?_⟩
  · obtain ⟨es, e, hdocument, he, hstop⟩ :=
      save_of_not_writable encodable_decayedNet not_writable_decayedNet hthere
    rw [hstop, Outcome.error_stopped]
    cases hnet : NetDocument.ofNet decayedNet (loneStore 4) with
    | error e => cases hnet
    | ok made =>
      rw [← hdocument hnet] at he
      cases hnet
      exact he.symm
  · exact load_of_not_writable lawful_decayedNet encodable_decayedNet
      not_writable_decayedNet hthere _

end

end Saved
end SlotGrad
