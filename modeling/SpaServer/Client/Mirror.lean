import SpaServer.Client.Uploads

/-!
# When an upload mirrors the directory

After a run of `upload_files` that returns `Ok` into a version that was not there,
the version should hold the files of the local directory and nothing else, and be
finished (`Mirrors`).  `mirrors_iff` says when it does: just when the key of every
file leads to its own path, and none is in the marker's place.

In one direction the keys put every file where it belongs (`mirrors_of_faithful`).  In
the other the files are in place, so every path is where some key leads, and then no
key leads astray (`faithful_of_mirrors`, by `LocalDir.eq_self_of_covers`).
-/

namespace SpaServer

open Base Program

namespace Client

variable {dk : Disk} {dir : LocalDir dk} {d : Str} {v : UInt32}

/-- The version holds the files of the directory and no others, and is finished. -/
structure Mirrors (dir : LocalDir dk) (d : Str) (v : UInt32) (w : World) : Prop where
  files : ∀ r f, dir.File r f →
    ∃ t, w.disk.node (w.fileLoc d v r) = some (.file ⟨f.bytes, t⟩)
  only : ∀ l g, w.versionLoc d v <+: l → w.disk.node l = some (.file g) →
    ∃ r f, dir.File r f ∧ l = w.fileLoc d v r
  unmarked : w.disk.node (w.markerLoc d v) = none
  free : w.storage.uploadingStatus d = none

theorem listingOf_absent {crates : Crates} {w : World}
    (h : w.disk.node (w.versionLoc d v) = none) : listingOf crates w d v = [] := by
  have hex : w.disk.exists? (getVersionPath w.storage.pathPrefix d v) = false := by
    rw [Disk.exists?, w.find_versionPath, h]
    rfl
  simp only [listingOf, getFilesMetadata, perform_bind, run_call, SpaServer.meaning, hex]
  rfl

def OnlyMarked (d : Str) (v : UInt32) (w : World) : Prop :=
  ∀ t n, w.disk.node (w.versionLoc d v ++ t) = some n →
    t = [] ∧ n = .dir ∨ t = [.utf8 uploadingFileName]

theorem OnlyMarked.node_eq_none {w : World} (h : OnlyMarked d v w) {r : List Str} (hne : r ≠ [])
    (hmark : r ≠ [uploadingFileName]) : w.disk.node (w.fileLoc d v r) = none := by
  by_contra hsome
  obtain ⟨n, hn⟩ := Option.ne_none_iff_exists'.mp hsome
  rcases h _ n hn with ⟨ht, -⟩ | ht
  · exact hne (List.map_eq_nil_iff.mp ht)
  · exact hmark (World.fileLoc_injective (w := w) (d := d) (v := v)
      (congrArg (w.versionLoc d v ++ ·) ht))

theorem started_new {w : World} {res : Except StorageError Unit × World}
    (hnew : w.disk.node (w.versionLoc d v) = none)
    (h : StatusOutcome w d v .uploading res) (hok : res.1 = .ok ()) : OnlyMarked d v res.2 := by
  have hbelow : ∀ t, w.disk.node (w.versionLoc d v ++ t) = none := by
    intro t
    by_cases ht : t = []
    · rw [ht, List.append_nil, hnew]
    · exact w.disk.node_append_none (by rw [hnew]; simp) ht
  cases h with
  | other => exact absurd hok (by simp)
  | serving => exact absurd hok (by simp)
  | blocked => exact absurd hok (by simp)
  | again _ =>
    intro t n hn
    rw [hbelow t] at hn
    exact absurd hn (by simp)
  | @started dk' _ _ hd _ hm =>
    intro t n hn
    have hplaces : SamePlaces w ((w.setDisk (dk'.set _ _ hm)).setUploading
      (w.storage.uploadingStatus.insert d v)) := ⟨rfl, hd.1⟩
    rw [hplaces.versionLoc] at hn
    by_cases hmark : t = [.utf8 uploadingFileName]
    · exact Or.inr hmark
    · have hloc : w.versionLoc d v ++ t ≠ w.markerLoc d v := fun he =>
        hmark (List.append_cancel_left he)
      change (dk'.set _ _ hm).node _ = _ at hn
      rw [dk'.set_node_of_ne hm hloc] at hn
      rcases hd.2 (w.versionLoc d v ++ t) with he | ⟨-, hdir, hpre⟩
      · rw [he, hbelow t] at hn
        exact absurd hn (by simp)
      · have ht : t = [] := by
          have := hpre.length_le
          rw [List.length_append] at this
          exact List.length_eq_zero_iff.mp (by omega)
        exact Or.inl ⟨ht, Option.some.inj (hn.symm.trans hdir)⟩

section Finished

variable {who : List Str → Prop} {w w₁ w₂ : World}

/-- When the files are in place, every path is where some key leads. -/
theorem faithful_of_mirrors (hempty : OnlyMarked d v w) (hsaved : Saved dir d v who w w₁)
    (hdone : ∀ r f, dir.File r f → Done dir d v w w₁ r f)
    (hfinish : StatusOutcome w₁ d v .finish (.ok (), w₂)) (hm : Mirrors dir d v w₂) :
    dir.Faithful := by
  obtain ⟨hplaces, -, hfinal⟩ := hsaved.finished hfinish rfl
  dsimp only at hplaces hfinal
  have hmarked : ∀ r f, dir.File r f → r ≠ [uploadingFileName] := by
    rintro r f hf rfl
    obtain ⟨t, ht⟩ := hm.files _ f hf
    rw [hplaces.fileLoc, hfinal, if_pos rfl] at ht
    exact absurd ht (by simp)
  refine fun r f hf => ⟨LocalDir.eq_self_of_covers (fun r f hf => ?_) (fun r f hf => ?_) r f hf,
    hmarked r f hf⟩
  · obtain ⟨names, hn, -⟩ := hdone r f hf
    exact ⟨names, hn⟩
  · obtain ⟨t, ht⟩ := hm.files r f hf
    rw [hplaces.fileLoc, hfinal,
      if_neg fun he => hmarked r f hf (World.fileLoc_injective he)] at ht
    rcases hsaved.adds _ _ ht with ho | ⟨r', f', names, -, hf', hs, ⟨he, -⟩ | ⟨hdir, -⟩⟩
    · rw [hempty.node_eq_none hf.ne_nil (hmarked r f hf)] at ho
      exact absurd ho (by simp)
    · obtain rfl := World.fileLoc_injective he
      exact ⟨r', f', hf', hs⟩
    · exact absurd hdir (by simp)

/-- Faithful keys put every file where it belongs. -/
theorem mirrors_of_faithful (hempty : OnlyMarked d v w) (hsaved : Saved dir d v who w w₁)
    (hdone : ∀ r f, dir.File r f → Done dir d v w w₁ r f)
    (hfinish : StatusOutcome w₁ d v .finish (.ok (), w₂)) (hfaith : dir.Faithful) :
    Mirrors dir d v w₂ := by
  obtain ⟨hplaces, hfree, hfinal⟩ := hsaved.finished hfinish rfl
  dsimp only at hplaces hfree hfinal
  refine ⟨fun r f hf => ?_, fun l g hl hg => ?_, ?_, hfree⟩
  · obtain ⟨hs, hmark⟩ := hfaith r f hf
    rw [hplaces.fileLoc, hfinal, if_neg fun he => hmark (World.fileLoc_injective he)]
    obtain ⟨names, hn, hcase⟩ := hdone r f hf
    obtain rfl := Option.some.inj (hs.symm.trans hn)
    rcases hcase with ⟨ht, -⟩ | ⟨-, hsome⟩
    · exact ht
    · exact (hsaved.file_new hfaith hf (hempty.node_eq_none hf.ne_nil hmark) hsome).2
  · rw [hfinal] at hg
    split at hg
    · exact absurd hg (by simp)
    next hne =>
    rw [hplaces.versionLoc] at hl
    rcases hsaved.adds _ _ hg with ho | ⟨r', f', names, -, hf', hs, ⟨he, -⟩ | ⟨hdir, -⟩⟩
    · obtain ⟨t, rfl⟩ := hl
      rcases hempty t _ ho with ⟨-, hdir⟩ | rfl
      · exact absurd hdir (by simp)
      · exact absurd rfl hne
    · obtain rfl := Option.some.inj ((hfaith r' f' hf').1.symm.trans hs)
      exact ⟨r', f', hf', by rw [hplaces.fileLoc, he]⟩
    · exact absurd hdir (by simp)
  · show w₂.disk.node (w₂.fileLoc d v [uploadingFileName]) = none
    rw [hplaces.fileLoc, hfinal, if_pos rfl]

end Finished

/-- **An upload mirrors the directory just when its keys are faithful.** -/
theorem mirrors_iff {host : Host} {crates : Crates} {api : API} {sched : List Nat}
    {version : Option UInt32} {path : PathBuf} {parallel : UInt32} {n n' : Net}
    (hpath : dk.locate path = dir.names.map .utf8)
    (hversion : version = some v ∨
      version = none ∧ (positionOf host.crates n.world d).version = v)
    (hnew : n.world.disk.node (n.world.versionLoc d v) = none)
    (hok : (uploadFiles crates api dk sched d version path parallel).run host.meaning n =
      (.ok (), n')) :
    Mirrors dir d v n'.world ↔ dir.Faithful := by
  obtain ⟨v', hwhich, -, -, n₁, results, n₂, hstart, hups, hall, hfinish⟩ :=
    uploadFiles_ok hpath hok
  obtain rfl : v' = v := by
    rcases hwhich with h | ⟨hn, h⟩
    · rcases hversion with h' | ⟨hn', -⟩
      · exact Option.some.inj (h.symm.trans h')
      · rw [hn'] at h; exact absurd h (by simp)
    · rcases hversion with h' | ⟨-, h'⟩
      · rw [hn] at h'; exact absurd h' (by simp)
      · exact h.symm.trans h'
  -- nothing is listed yet, so every file is sent
  rw [listingOf_absent hnew] at hups
  have hempty := started_new hnew hstart rfl
  obtain ⟨hsaved, hdone⟩ := uploads_dir hups
  have hdone' : ∀ r f, dir.File r f → Done dir d v' n₁.world n₂.world r f := fun r f hf =>
    (hdone hall r f hf (by rintro ⟨x, hx, -⟩; simp [DashMap.collect] at hx)).1
  exact ⟨faithful_of_mirrors hempty hsaved hdone' hfinish,
    mirrors_of_faithful hempty hsaved hdone' hfinish⟩

/-! ### A whole upload -/

def uploadSite (dk : Disk) : Except UploadError Unit × Net :=
  (uploadFiles Crates.simple bareApi dk [] "www.a.com".toList (some 1) "/site".toList 1).run
    bareHost.meaning bareNet

theorem uploadSite_ok {dk : Disk} (h : (uploadSite dk).1 = .ok ()) :
    uploadSite dk = (.ok (), (uploadSite dk).2) := by
  rw [← h]

/-- Both files are on the server, under their own paths. -/
theorem mirrors_nested :
    Mirrors nestedDir "www.a.com".toList 1 (uploadSite nestedSite).2.world :=
  (mirrors_iff (by decide +kernel) (Or.inl rfl) (by decide +kernel)
    (uploadSite_ok (by decide +kernel))).mpr nested_faithful

theorem percentFile_site : (siteWith "a%41".toList).node (siteNames.map .utf8) = some .dir := by
  decide +kernel

/-- The file /site/a%41 is stored as aA. -/
theorem percentFile_lost :
    ¬ ∀ (host : Host) (crates : Crates) (api : API) (dk : Disk) (dir : LocalDir dk)
      (sched : List Nat) (d : Str) (v : UInt32) (path : PathBuf) (parallel : UInt32) (n n' : Net),
      dk.locate path = dir.names.map .utf8 →
      n.world.disk.node (n.world.versionLoc d v) = none →
      (uploadFiles crates api dk sched d (some v) path parallel).run host.meaning n =
        (.ok (), n') → Mirrors dir d v n'.world := by
  intro h
  have hm := h bareHost Crates.simple bareApi _ (siteDir _ percentFile_site) [] _ 1 _ _ _ _
    (by decide +kernel) (by decide +kernel) (uploadSite_ok (by decide +kernel))
  obtain ⟨t, ht⟩ := hm.files ["a%41".toList] ⟨[1], 0⟩
    (show (siteWith "a%41".toList).node _ = _ by decide +kernel)
  have hnone : (uploadSite (siteWith "a%41".toList)).2.world.disk.node
      ((uploadSite (siteWith "a%41".toList)).2.world.fileLoc "www.a.com".toList 1
        ["a%41".toList]) = none := by
    decide +kernel
  rw [hnone] at ht
  exact absurd ht (by simp)

end Client

end SpaServer
