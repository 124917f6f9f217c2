import Literate.AK.URLMutators

/-!
# AK: URLs that are up to date

Which of the URLs that are made are settled, and which runs of the setters keep them so.
-/

namespace Literate.AK

open Foundation List Option

namespace URL

variable {url : URL}

/-! ## Origins -/

theorem settled_iff_of_valid (h : url.valid = true) : url.Settled ↔ url.Filled ∧ url.Carried := by
  unfold Settled
  rw [h, eq_comm, computeValidity_eq_true_iff]
  unfold Filled
  by_cases hdata : url.scheme = some data
  · rw [computeBodyValidity_data hdata, if_pos hdata]
    constructor
    · rintro ⟨⟨hscheme, hbody, hhost⟩, hport⟩
      exact ⟨hbody, hscheme, fun hne => absurd hdata hne, hhost, hport⟩
    · rintro ⟨hbody, hcarried⟩
      exact ⟨⟨hcarried.scheme, hbody, hcarried.host⟩, hcarried.port⟩
  · rw [if_neg hdata]
    cases hcannot : url.cannotBeABaseUrl with
    | true =>
      rw [computeBodyValidity_opaquePath hdata hcannot, if_pos rfl]
      constructor
      · rintro ⟨⟨hscheme, hpath, hhost⟩, hport⟩
        refine ⟨fun hpaths => hpath.2 (by rw [hpaths, headD_cons]), ?_⟩
        exact ⟨hscheme, fun _ _ => hpath.1, hhost, hport⟩
      · rintro ⟨hpath, hcarried⟩
        obtain ⟨only, hpaths⟩ := length_eq_one_iff.mp (hcarried.path hdata hcannot)
        have hfirst : url.paths.headD [] ≠ [] := by
          rw [hpaths, headD_cons]
          exact fun honly => hpath (by rw [hpaths, honly])
        have hopaquePath : url.Opaque := ⟨hcarried.path hdata hcannot, hfirst⟩
        exact ⟨⟨hcarried.scheme, hopaquePath, hcarried.host⟩, hcarried.port⟩
    | false =>
      rw [computeBodyValidity_hierarchical hdata hcannot, if_neg Bool.false_ne_true]
      constructor
      · rintro ⟨⟨hscheme, hpath, hhost⟩, hport⟩
        have hnone : url.scheme ≠ some data → url.cannotBeABaseUrl = true → url.paths.length = 1 :=
          fun _ htrue => absurd (hcannot ▸ htrue) Bool.false_ne_true
        exact ⟨hpath, hscheme, hnone, hhost, hport⟩
      · rintro ⟨hpath, hcarried⟩
        exact ⟨⟨hcarried.scheme, hpath, hcarried.host⟩, hcarried.port⟩

theorem settled_new : new.Settled := by decide

open URLParser in
/-- Without a base URL nothing is lacking that the path does not show. -/
theorem carried_of_shaped (h : Shaped url) (hfilled : url.Filled) : url.Carried where
  scheme := by
    obtain ⟨scheme, hscheme, ⟨b, hb, -⟩, -⟩ := h.scheme
    rw [hscheme, getD_some]
    rintro rfl
    cases hb
  path := by
    intro _ hcannot
    obtain ⟨-, -, only, hpaths⟩ := h.path hcannot
    rw [hpaths, length_singleton]
  host := by
    intro hfile hhost
    have hspecial : url.isSpecial = true := by rw [isSpecial, hfile]; rfl
    have hpaths := h.hostless hspecial hhost
    unfold Filled at hfilled
    rw [hfile, if_neg (by decide)] at hfilled
    split at hfilled
    · next hcannot => exact Bool.false_ne_true ((h.path hcannot).1 ▸ hspecial)
    · exact hfilled.2 hpaths
  port := by
    cases hhost : url.host with
    | none =>
      rw [h.port hhost]
      exact (some_ne_none _).symm
    | some host =>
      have hshape := h.host host hhost
      unfold HostShape at hshape
      split at hshape
      · rw [hshape.2.2]
        exact (some_ne_none _).symm
      · intro hport
        have hports : PortShape (url.scheme.getD []) url.port := by
          split at hshape
          · exact hshape.2
          · exact hshape.2.1
        exact (hports _ hport).2 rfl

theorem carried_ofData (mimeType payload : List UInt8) (isBase64 : Bool) :
    (ofData mimeType payload isBase64).Carried where
  scheme := data_ne_nil
  path := fun hne => absurd rfl hne
  host := fun hfile => absurd (some.inj hfile) (by decide)
  port := nofun

open URLParser in
theorem carried_of_parse {rawInput : List UInt8} (h : parse rawInput none none none = .url url)
    (hvalid : url.valid = true) (hfilled : url.Filled) : url.Carried := by
  cases parse_cases h with
  | inl hnew =>
          subst hnew
          cases hvalid
  | inr h =>
    cases h with
    | inl hdata =>
      obtain ⟨mimeType, payload, isBase64, rfl⟩ := hdata
      exact carried_ofData mimeType payload isBase64
    | inr hloop =>
      obtain ⟨input, -, hloop⟩ := hloop
      have hshape : Shape input (URLParser.start none none) := ⟨rfl, rfl⟩
      exact carried_of_shaped (shaped_of_mainLoop hshape hloop hvalid) hfilled

theorem settled_parse_iff {rawInput : List UInt8} {base start : Option URL}
    {stateOverride : Option URLParser.State}
    (h : URLParser.parse rawInput base start stateOverride = .url url) :
    url.Settled ↔ (url.valid = true → url.Filled ∧ url.Carried) := by
  cases URLParser.valid_of_parse h with
  | inl hvalid => rw [settled_iff_of_valid hvalid, forall_prop_of_true hvalid]
  | inr hnew =>
    subst hnew
    exact iff_of_true settled_new nofun

theorem settled_ofData_iff (mimeType payload : List UInt8) (isBase64 : Bool) :
    (ofData mimeType payload isBase64).Settled ↔
      mimeType ≠ [] ∧ (isBase64 = true → isBase64Payload payload = true) := by
  rw [settled_iff_of_valid rfl]
  refine (and_iff_left (carried_ofData mimeType payload isBase64)).trans ?_
  unfold Filled
  exact Iff.of_eq (if_pos rfl)

theorem file_notMem : file ∉ [about, mailto] := by decide

/-- The URL of `create_with_file_scheme` before its last segment. -/
theorem settled_setPaths_setHost (host : Option (List UInt8)) (parts : List (List UInt8)) :
    (((new.setScheme (some file)).setHost host).setPaths parts).Settled :=
  settled_refreshed.mpr nofun

/-- The empty segment behind a last slash is appended without a look at the validity, which
the path `/` did not have. -/
theorem settled_createWithFileScheme_iff (path fragment hostname : Option (List UInt8)) :
    (createWithFileScheme path fragment hostname).Settled ↔
      ((path.getD []).getLast? = some (byte '/') →
        (LexicalPath.ofPath path).string ≠ [LexicalPath.slash]) := by
  cases path with
  | none => exact iff_of_true settled_new nofun
  | some path =>
    unfold createWithFileScheme
    dsimp only
    cases habsolute : (LexicalPath.ofPath (some path)).isAbsolute with
    | false =>
      refine iff_of_true settled_new fun _ hroot => ?_
      rw [LexicalPath.isAbsolute, hroot] at habsolute
      cases habsolute
    | true =>
      rw [Bool.not_true, if_neg Bool.false_ne_true]
      have hhost : (if hostname = none ∨ hostname = some URLParser.localhost then some []
          else hostname) ≠ none := by
        split
        · nofun
        · next hne => exact fun hnone => hne (.inl hnone)
      generalize (if hostname = none ∨ hostname = some URLParser.localhost then some []
        else hostname) = host at hhost
      have hsettled := settled_setPaths_setHost host (LexicalPath.ofPath (some path)).parts
      split
      · next hlast =>
        rw [forall_prop_of_true hlast]
        refine (settled_mutate_iff hsettled (.appendPath [])).trans ?_
        refine Iff.trans ?_ LexicalPath.parts_eq_nil_iff.not
        constructor
        · intro hrefreshes
          cases hrefreshes with
          | inl hignored =>
            cases hignored with
            | inl hscheme => exact absurd hscheme file_ne_nil
            | inr hignored =>
              cases hignored with
              | inl hdata => exact absurd (some.inj hdata) (by decide)
              | inr hnone => exact absurd hnone.2 hhost
          | inr hpath =>
            cases hpath with
            | inl hscheme => exact absurd hscheme file_notMem
            | inr hpath => exact hpath
        · exact fun hpath => .inr (.inr hpath)
      · next hlast => exact iff_of_true hsettled fun h => absurd h hlast

/-- What an origin makes is settled exactly when the origin is sound. -/
theorem settled_make_iff {origin : Origin} (h : origin.make = some url) :
    url.Settled ↔ origin.Sound url := by
  cases origin with
  | default =>
    cases h
    exact iff_of_true settled_new trivial
  | parse rawInput base start stateOverride =>
    rw [Origin.make] at h
    split at h
    · next url' hparse =>
      cases h
      have hsettled := settled_parse_iff hparse
      unfold Origin.Sound
      split
      · trivial
      · next hargs =>
        cases hargs
        refine hsettled.trans (forall_congr' fun hvalid => and_iff_left_of_imp ?_)
        exact carried_of_parse hparse hvalid
      · next _ hargs =>
        cases hargs
        exact hsettled
      · next hargs => cases hargs
      · next hargs => cases hargs
    · cases h
    · cases h
  | data mimeType payload isBase64 =>
    cases h
    exact settled_ofData_iff mimeType payload isBase64
  | fileScheme path fragment hostname =>
    cases h
    exact settled_createWithFileScheme_iff path fragment hostname

/-! ## Runs -/

end URL

end Literate.AK
