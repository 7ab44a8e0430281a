/-
`remove_dir_all` returns.

The path of a call for an entry leads one level further down, or through one more link.  The tree
has finitely many levels and the kernel replaces at most 40 links, so the calls do not nest for
ever, wherever the links lead.
-/
import PureStd.Fs.RemoveDirAll

namespace PureStd.Fs

open FileTree

variable {t t' : Tree} {q : Path} {w : World} {l L L' : Loc FileName} {m : FileName}
  {d k k' : ℕ}

/-- No entry of the tree is more than `d` levels down. -/
def Deep (t : Tree) (d : ℕ) : Prop := ∀ l x, t.get l = some x → l.length ≤ d

lemma Deep.mono (h : Deep t d) (hsub : Sub t' t) : Deep t' d :=
  fun l x hx => h l x (hsub.get l x hx)

lemma exists_deep (t : Tree) : ∃ d, Deep t d := by
  refine ⟨(t.entries.map fun e => e.1.length).sum, fun l x hx => ?_⟩
  by_cases hl : l = []
  · simp [hl]
  · exact List.le_sum_of_mem (List.mem_map_of_mem ((get_eq_some hl).1 hx))

/-- How deep the calls below a directory can nest, if `k` links are left. -/
def callsLeft (d k : ℕ) (L : Loc FileName) : ℕ := k * (d + 1) + (d - L.length)

/-- The path of an entry is further down, or has used a link. -/
lemma callsLeft_join (hdeep : Deep t d) (hq : q ≠ []) (hopen : Reaches t true q L k)
    (hsub : Sub t' t) (h : Reaches t' true (Path.join q m.bytes) L' k') :
    callsLeft d k' L' < callsLeft d k L := by
  rw [callsLeft, callsLeft]
  cases walks_join hq hopen hsub h with
  | entry _ hx _ hdone =>
    cases hdone
    have hlevel := hdeep _ _ (hsub.get _ _ hx)
    rw [List.length_cons] at hlevel ⊢
    omega
  | @link k _ _ _ _ _ _ _ _ _ hrest =>
    calc k' * (d + 1) + (d - L'.length) < (k' + 1) * (d + 1) := by
          rw [Nat.succ_mul]
          omega
      _ ≤ (k + 1) * (d + 1) := Nat.mul_le_mul_right _ (Nat.succ_le_succ hrest.budget_le)
      _ ≤ (k + 1) * (d + 1) + (d - L.length) := Nat.le_add_right _ _

/-- The loop returns if the calls for its entries do. -/
lemma removeOpened_ne_none {rec : Path → World → World × Outcome} {es : List DirEntry}
    (hshrink : ∀ q w, w.Alone → Shrunk [] w (rec q w).1) (hw : w.Alone) (hsub : Sub w.tree t)
    (hrec : ∀ e ∈ es, ∀ w, w.Alone → Sub w.tree t → (rec e.path w).2 ≠ none) :
    (removeOpened rec q es w).2 ≠ none := by
  induction es generalizing w with
  | nil =>
    rcases removeOpened_nil rec q w with ⟨w₁, err, -, heq⟩ | ⟨w₁, w₂, r, -, -, heq⟩ <;>
      rw [heq] <;> exact nofun
  | cons e es ih =>
    rcases removeOpened_cons rec q e es w with ⟨w₁, err, -, heq⟩ |
      ⟨w₁, w₂, out, hn, hentry, hrest⟩
    · rw [heq]
      exact nofun
    · obtain ⟨htree, hw₁⟩ := nextEntry_same hw hn
      rcases hrest with ⟨-, heq⟩ | ⟨-, heq⟩ <;> rw [heq]
      · rcases removeEntry_cases rec e w₁ with ⟨w₃, err, -, heq'⟩ | ⟨w₃, hft, heq'⟩ |
          ⟨w₃, w₄, ft, r, -, -, -, heq'⟩ <;> rw [heq'] at hentry
        · cases hentry
          exact nofun
        · obtain ⟨htree₃, hw₃⟩ := fileType_same hw₁ hft
          have hreturns := hrec e (List.mem_cons_self ..) w₃ hw₃ (htree₃ ▸ htree ▸ hsub)
          rw [hentry] at hreturns
          exact hreturns
        · cases hentry
          exact nofun
      · have hturn := removeEntry_shrinks hshrink hw₁ hentry
        exact ih (hturn.alone hw₁) (hturn.sub.trans (htree ▸ hsub))
          fun e' he' => hrec e' (List.mem_cons_of_mem e he')

/-- The calls return with one more unit of fuel than they can nest. -/
lemma removeDirAll_ne_none (hdeep : Deep t d) (fuel : ℕ) (hw : w.Alone) (hsub : Sub w.tree t)
    (hfuel : ∀ L k, Reaches w.tree true q L k → callsLeft d k L < fuel) :
    (removeDirAll (fuel + 1) q w).2 ≠ none := by
  induction fuel generalizing q w with
  | zero =>
    rcases removeDirAll_cases 0 q w with ⟨w₁, err, -, heq⟩ | ⟨w₁, es, hread, -⟩
    · rw [heq]
      exact nofun
    · obtain ⟨-, L, hopen, -⟩ := readDir_eq_ok hw hread
      obtain ⟨-, k, hreach⟩ := lookup_eq_ok.1 hopen.1
      exact absurd (hfuel L k hreach) (by simp)
  | succ fuel ih =>
    rcases removeDirAll_cases (fuel + 1) q w with ⟨w₁, err, -, heq⟩ | ⟨w₁, es, hread, heq⟩ <;>
      rw [heq]
    · exact nofun
    · obtain ⟨htree, hw₁⟩ := readDir_same hw hread
      obtain ⟨-, L, hopen, rfl⟩ := readDir_eq_ok hw hread
      obtain ⟨hq, k, hreach⟩ := lookup_eq_ok.1 hopen.1
      have hsub₁ : Sub w₁.tree w.tree := htree ▸ .refl _
      refine removeOpened_ne_none (removeDirAll_shrinks (fuel + 1)) hw₁ hsub₁
        fun e he w₂ hw₂ hsub₂ => ?_
      obtain ⟨⟨n, x⟩, -, rfl⟩ := List.mem_map.1 he
      refine ih hw₂ (hsub₂.trans hsub) fun L' k' hreach' => ?_
      rw [dirEntry_path] at hreach'
      have hless := callsLeft_join (hdeep.mono hsub) hq hreach hsub₂ hreach'
      exact hless.trans_le (Nat.le_of_lt_succ (hfuel L k hreach))

/-- Whichever calls fail and whatever the listings tell, `remove_dir_all` returns. -/
lemma removeDirAll_returns (t : Tree) (p : Path) :
    ∃ fuel, ∀ w : World, w.Alone → w.tree = t → (removeDirAll fuel p w).2 ≠ none := by
  obtain ⟨d, hdeep⟩ := exists_deep t
  refine ⟨maxLinks * (d + 1) + d + 1 + 1, fun w hw htree => ?_⟩
  refine removeDirAll_ne_none hdeep _ hw (htree ▸ .refl _) fun L k hreach => ?_
  rw [callsLeft]
  have hk : k * (d + 1) ≤ maxLinks * (d + 1) := Nat.mul_le_mul_right _ hreach.budget_le
  omega

end PureStd.Fs
