import OpenshiftConsole.Filesystem.ExtractBelow
import OpenshiftConsole.Filesystem.Restored

/-!
# Names that an extraction makes

No name with a backslash is made by an extraction that overwrites nothing, whatever the archive:
`safeName` takes a backslash for a slash (`extractMembers_tidy`).
-/

namespace OpenshiftConsole.Filesystem.Extract

open OpenshiftConsole.Library.Lines (Text)
open OpenshiftConsole.Library.PathWalk OpenshiftConsole.Library.FileTree OpenshiftConsole.Library.Loops

variable {K : Kernel} {d d' : Fs} {D L R : Loc Name} {p target dest : Text} {n : Name} {ns ms ks : List Name}
  {perm : ℕ} {limits : ExtractLimits}

/-! ### No backslash -/

/-- Names lead to the destination, and no name below it has a backslash. -/
structure Tidy (d : Fs) (ms : List Name) (R : Loc Name) : Prop where
  leads : Leads d (ms.map .down) R
  names : ∀ y, d.tree.kindAt (y ++ R) ≠ none → ∀ n ∈ y, '\\' ∉ n.text

theorem Tidy.congr (h : Tidy d ms R) (hk : d'.tree.kindAt = d.tree.kindAt) : Tidy d' ms R :=
  ⟨h.leads.mono (hk ▸ Extends.refl _), hk ▸ h.names⟩

theorem Tidy.make {κ : Kind Name} (h : Tidy d ms R) (hm : Makes d (n :: D) κ d') (hn : '\\' ∉ n.text) : Tidy d' ms R := by
  refine ⟨h.leads.mono hm.grows, fun y hy => ?_⟩
  rw [hm.kindAt] at hy
  by_cases hL : y ++ R = n :: D
  · cases y with
    | nil => simp
    | cons k y =>
      obtain ⟨rfl, rfl⟩ := List.cons.inj hL
      have hdir : d.tree.kindAt (y ++ R) ≠ none := fun hnone => Option.some_ne_none _ (hm.dir.symm.trans hnone)
      intro m hm
      rcases List.mem_cons.mp hm with rfl | hm
      · exact hn
      · exact h.names y hdir m hm
  · rw [Function.update_of_ne hL] at hy
    exact h.names y hy

theorem steps_built_name (built : Text) (n : Name) :
    steps ('/' :: if built.isEmpty then n.text else built ++ '/' :: n.text) = steps built ++ [.down n] := by
  have hn : steps n.text = [.down n] := steps_name n
  rw [Root.steps_built built (slash_notMem_name n), ← steps_of_notMem (slash_notMem_name n), hn]

theorem Tidy.mkdirLoop {built : Text} (h : Tidy d ms R) (hks : ∀ k ∈ ks, '\\' ∉ k.text) :
    Tidy (Root.mkdirLoop K perm built (ks.map Name.text) d).1 ms R := by
  induction ks generalizing built d with
  | nil => exact h
  | cons k ks ih =>
    have hrest : ∀ {d : Fs} {built : Text}, Tidy d ms R → Tidy (Root.mkdirLoop K perm built (ks.map Name.text) d).1 ms R :=
      fun h => ih h fun m hm => hks m (List.mem_cons_of_mem k hm)
    rw [List.map_cons, Root.mkdirLoop]
    split
    · rename_i d₁ hd₁
      obtain ⟨i, m, D, hs, -, hm⟩ := Root.mkdir_ok hd₁
      rw [steps_built_name] at hs
      obtain rfl := last_of_steps hs
      exact hrest (h.make hm (hks k List.mem_cons_self))
    · split
      · split
        · exact hrest h
        · exact h
      · exact h

theorem Tidy.mkdirAll (h : Tidy d ms R) (hp : Spells p (ms ++ ks)) (hks : ∀ k ∈ ks, '\\' ∉ k.text) :
    Tidy (Root.mkdirAll K d p perm).1 ms R := by
  obtain ⟨cleaned, hc, ⟨rfl, -⟩ | ⟨-, hdot, hs⟩⟩ := hp.cleanPath
  · rw [Root.mkdirAll, hc]
    exact h
  · have hpass := mkdirLoop_passes (K := K) perm [] ms ks
      (fun m hm => hs.nul_names m (List.mem_append_left _ hm)) h.leads
    rw [Root.mkdirAll, hc]
    dsimp only
    rw [if_neg hdot, hs.splitComponents]
    show Tidy (Root.mkdirLoop K perm (spell []) _ d).1 ms R
    rw [hpass]
    exact h.mkdirLoop hks

/-- The path of what is written: below the destination, through names without a backslash. -/
structure Inside (target : Text) (ms ks : List Name) (n : Name) : Prop where
  spells : Spells target (ms ++ ks ++ [n])
  slash : trailingSlash target = false
  root : target.head? = some '/'
  clean : ∀ k ∈ ks ++ [n], '\\' ∉ k.text

theorem Tidy.makeParent (h : Tidy d ms R) (ht : Inside target ms ks n) : Tidy (makeParent K target d).1 ms R := by
  unfold Extract.makeParent
  dsimp only
  split
  · rw [ht.spells.pathDir ht.slash ht.root]
    have hdir : Spells ('/' :: spell (ms ++ ks)) (ms ++ ks) :=
      (spells_spell fun m hm => ht.spells.nul_names m (List.mem_append_left _ hm)).slash
    exact h.mkdirAll hdir fun k hk => ht.clean k (List.mem_append_left _ hk)
  · exact h

/-- What is made at the target is made under its last name. -/
theorem Tidy.makeTarget {κ : Kind Name} {i : List (Step Name)} {m : Name} (h : Tidy d ms R) (ht : Inside target ms ks n)
    (hs : steps target = i ++ [.down m]) (hm : Makes d (m :: D) κ d') : Tidy d' ms R := by
  rw [ht.spells.steps_concat] at hs
  obtain rfl := last_of_steps hs
  exact h.make hm (ht.clean n (by simp))

theorem Tidy.writeFile {copy : ℤ → Body → Copied} {src : Body} {budget : ℤ} (h : Tidy d ms R)
    (ht : Inside target ms ks n) : Tidy (writeFile K copy target perm src false budget d).1 ms R := by
  have hparent := h.makeParent (K := K) ht
  rcases writeFile_new K copy target perm src budget d with hd | ⟨_, _, _, _, hs, hm, ha⟩
  · rw [hd]
    exact hparent
  · exact (hparent.makeTarget ht hs hm).congr ha.kindAt

theorem Tidy.writeSymlink {link : Text} (h : Tidy d ms R) (ht : Inside target ms ks n) :
    Tidy (writeSymlink K target link false d).1 ms R := by
  have hparent := h.makeParent (K := K) ht
  rcases writeSymlink_new K target link d with hd | ⟨_, _, _, _, hs, hm⟩
  · rw [hd]
    exact hparent
  · exact hparent.makeTarget ht hs hm

/-- **One turn of the loop** makes no name with a backslash, whatever the member. -/
theorem Tidy.extractMember (copy : ℤ → Body → Copied) (limits : ExtractLimits) (m : Member) {s : Progress}
    (h : Tidy s.disk ms R) (hdest : Spells dest ms) : Tidy (extractMember K copy dest false limits m s).1.disk ms R := by
  apply extractMember_invariant (I := fun d => Tidy d ms R) h
  · intro name hname hne s' err hs'
    obtain ⟨ns, hns, rfl, hnul, hclean⟩ := safeName_ok hname hne
    obtain ⟨ks, n, rfl⟩ := (List.eq_nil_or_concat ns).resolve_left hns
    rw [List.concat_eq_append] at *
    have ht : Inside (Rootfs.join dest (spell (ks ++ [n]))) ms ks n := by
      refine ⟨?_, ?_, head?_join _ _, hclean⟩
      · rw [List.append_assoc]
        exact hdest.join (spells_spell hnul)
      · rw [trailingSlash_join hne]
        exact trailingSlash_spell
    rw [writeMember] at hs'
    split at hs' <;> obtain ⟨hs', -⟩ := Prod.mk.inj hs'
    · obtain rfl := Option.some.inj hs'
      exact h.mkdirAll (List.append_assoc ms ks [n] ▸ ht.spells) hclean
    · exact Option.some.inj hs' ▸ h
    · obtain rfl := Option.some.inj hs'
      exact h.writeSymlink ht
    · exact Option.some.inj hs' ▸ h
    · obtain rfl := Option.some.inj hs'
      exact h.writeFile ht
    · cases hs'
  · intro target d hd
    exact hd.congr (funext fun L => kindAt_congr (congrFun nodeAt_setTimes L))

/-- **No extraction makes a name with a backslash**. -/
theorem extractMembers_tidy (copy : ℤ → Body → Copied) (limits : ExtractLimits) (members : List Member) {s : Progress}
    (h : Tidy s.disk ms R) (hdest : Spells dest ms) : Tidy (extractMembers K copy dest false limits members s).1.disk ms R := by
  rw [extractMembers_eq]
  exact forEach_invariant (I := fun s : Progress => Tidy s.disk ms R) (fun m _ s hs => hs.extractMember copy limits m hdest) h

end OpenshiftConsole.Filesystem.Extract
