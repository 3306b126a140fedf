import CssText.Proofs.Bytes
import CssText.Source
import Mathlib.Data.List.Basic

/-!
# File URLs name paths

`Percent.Encodes` relates a path to all the ways in which a URL can write it. However it is
written, the URL names just that path, and loading the URL opens it. A location with the
scheme of a file URL is never taken for a path itself (`Source.load_fileUrl`).
-/

namespace CssText

namespace Percent

/-!
## Encoded paths
-/

/--
The second text writes each byte of the first one as itself or as a percent sign and its two
hexadecimal digits. A percent sign, a question mark and a number sign are never written as
themselves.
-/
inductive Encodes : Bytes → Bytes → Prop where
  | nil : Encodes [] []
  | raw {b : UInt8} {bs es : Bytes} (hpercent : b ≠ Byte.percent) (hquestion : b ≠ Byte.question)
      (hnumber : b ≠ Byte.numberSign) (h : Encodes bs es) : Encodes (b :: bs) (b :: es)
  | escaped {b high low : UInt8} {bs es : Bytes} (hhigh : isHexDigit high = true)
      (hlow : isHexDigit low = true)
      (hvalue : hexDigitValue high * 16 + hexDigitValue low = b.toNat) (h : Encodes bs es) :
      Encodes (b :: bs) (Byte.percent :: high :: low :: es)

theorem decode_cons_of_ne {b : UInt8} (hb : b ≠ Byte.percent) (bs : Bytes) :
    decode (b :: bs) = b :: decode bs := by
  cases bs with
  | nil => rfl
  | cons c bs =>
      cases bs with
      | nil => rfl
      | cons d bs => rw [decode, if_neg (by simp [hb])]

theorem decode_escaped {b high low : UInt8} (hhigh : isHexDigit high = true)
    (hlow : isHexDigit low = true)
    (hvalue : hexDigitValue high * 16 + hexDigitValue low = b.toNat) (bs : Bytes) :
    decode (Byte.percent :: high :: low :: bs) = b :: decode bs := by
  rw [decode, if_pos (by simp [hhigh, hlow]), hvalue, UInt8.ofNat_toNat]

theorem Encodes.decode_eq {bs es : Bytes} (h : Encodes bs es) : decode es = bs := by
  induction h with
  | nil => rfl
  | raw hpercent _ _ _ ih => rw [decode_cons_of_ne hpercent, ih]
  | escaped hhigh hlow hvalue _ ih => rw [decode_escaped hhigh hlow hvalue, ih]

def endsPath (b : UInt8) : Bool :=
  b = Byte.question || b = Byte.numberSign

theorem not_endsPath_of_isHexDigit : ∀ b : UInt8, isHexDigit b = true → endsPath b = false :=
  forall_byte (by decide +kernel)

theorem Encodes.not_endsPath {bs es : Bytes} (h : Encodes bs es) :
    ∀ b ∈ es, endsPath b = false := by
  induction h with
  | nil => exact List.forall_mem_nil _
  | raw _ hquestion hnumber _ ih =>
      exact List.forall_mem_cons.mpr ⟨by simp [endsPath, hquestion, hnumber], ih⟩
  | escaped hhigh hlow _ _ ih =>
      exact List.forall_mem_cons.mpr ⟨rfl, List.forall_mem_cons.mpr
        ⟨not_endsPath_of_isHexDigit _ hhigh, List.forall_mem_cons.mpr
          ⟨not_endsPath_of_isHexDigit _ hlow, ih⟩⟩⟩

theorem length_decode_le (bs : Bytes) : (decode bs).length ≤ bs.length := by
  fun_induction decode bs with
  | case1 b high low rest h ih =>
      simp only [List.length_cons]
      omega
  | case2 b high low rest h ih =>
      simp only [List.length_cons] at ih ⊢
      omega
  | case3 bs h => exact Nat.le_refl _

end Percent

/-!
## Letter case

A mark such as the slash has no other letter case. So a word in any letter case holds just the
marks of the word, and the scheme and the host end where they would in lower case.
-/

theorem lowerByte_eq_slash : ∀ b : UInt8, lowerByte b = Byte.slash → b = Byte.slash :=
  forall_byte (by decide +kernel)

theorem lowerByte_eq_colon : ∀ b : UInt8, lowerByte b = Byte.colon → b = Byte.colon :=
  forall_byte (by decide +kernel)

theorem mark_notMem {mark : UInt8} (hmark : lowerByte mark = mark) {word bs : Bytes}
    (h : lowerCase bs = word) (hword : mark ∉ word) : mark ∉ bs := by
  intro hmem
  apply hword
  rw [← h, ← hmark]
  exact List.mem_map_of_mem hmem

namespace FileUrl

open Percent (Encodes endsPath)

theorem exists_name {s : Bytes} (h : lowerCase s = scheme) :
    ∃ name, s = name ++ [Byte.colon] ∧ lowerCase name = ascii "file" := by
  have hsplit : scheme = ascii "file" ++ [Byte.colon] := rfl
  rw [hsplit, lowerCase, List.map_eq_append_iff] at h
  rcases h with ⟨name, mark, rfl, hname, hmark⟩
  rcases List.map_eq_singleton_iff.mp hmark with ⟨b, rfl, hb⟩
  exact ⟨name, by rw [lowerByte_eq_colon b hb], hname⟩

theorem hasScheme_append {s : Bytes} (h : lowerCase s = scheme) (rest : Bytes) :
    hasScheme (s ++ rest) = true ∧ (s ++ rest).drop scheme.length = rest := by
  have hlength : s.length = scheme.length := by
    rw [← h, lowerCase, List.length_map]
  rw [hasScheme, ← hlength, List.take_left, List.drop_left, decide_eq_true h]
  exact ⟨rfl, rfl⟩

/-- What may stand in front of the path, taken apart at the end of the scheme and of the host. -/
theorem exists_host {front : Bytes}
    (h : lowerCase front = ascii "file://" ∨ lowerCase front = ascii "file://localhost") :
    ∃ s host, front = s ++ (ascii "//" ++ host) ∧ lowerCase s = scheme ∧
      isLocalHost host = true := by
  have hsplit : ∃ word, lowerCase front = scheme ++ (ascii "//" ++ word) ∧
      (word = [] ∨ word = ascii "localhost") := by
    rcases h with h | h
    · exact ⟨[], h, Or.inl rfl⟩
    · exact ⟨ascii "localhost", h, Or.inr rfl⟩
  rcases hsplit with ⟨word, hfront, hword⟩
  rcases List.map_eq_append_iff.mp hfront with ⟨s, rest, rfl, hs, hrest⟩
  rcases List.map_eq_append_iff.mp hrest with ⟨slashes, host, rfl, hslashes, hhost⟩
  have hslashes : slashes = ascii "//" := by
    rcases List.map_eq_cons_iff.mp hslashes with ⟨b, bs, rfl, hb, hbs⟩
    rcases List.map_eq_singleton_iff.mp hbs with ⟨c, rfl, hc⟩
    rw [lowerByte_eq_slash b hb, lowerByte_eq_slash c hc]
    rfl
  refine ⟨s, host, by rw [hslashes], hs, ?_⟩
  rcases hword with rfl | rfl
  · rw [List.map_eq_nil_iff.mp hhost]
    rfl
  · rw [isLocalHost, show lowerCase host = ascii "localhost" from hhost]
    exact Bool.or_true _

theorem slash_notMem {host : Bytes} (h : isLocalHost host = true) : Byte.slash ∉ host := by
  rcases Bool.or_eq_true_iff.mp h with h | h
  · rw [List.isEmpty_iff.mp h]
    exact List.not_mem_nil
  · exact mark_notMem (by decide) (of_decide_eq_true h) (by decide)

theorem afterHost?_append {host : Bytes} (h : isLocalHost host = true) (path : Bytes) :
    afterHost? (ascii "//" ++ (host ++ Byte.slash :: path)) = some (Byte.slash :: path) := by
  have hdrop : (ascii "//" ++ (host ++ Byte.slash :: path)).drop 2 = host ++ Byte.slash :: path :=
    rfl
  have hhost : ∀ b ∈ host, decide (b ≠ Byte.slash) = true := by
    intro b hb
    exact decide_eq_true fun hslash => slash_notMem h (hslash ▸ hb)
  have hstop : beginsWith (fun b => decide (b ≠ Byte.slash)) (Byte.slash :: path) = false := rfl
  rw [afterHost?, if_pos (List.isPrefixOf_iff_prefix.mpr (List.prefix_append _ _)), hdrop]
  simp only
  rw [takeWhile_append_stop hhost hstop, dropWhile_append_stop hhost hstop, h]
  rfl

theorem withoutQuery_append {es suffix : Bytes} (hes : ∀ b ∈ es, endsPath b = false)
    (hsuffix : ∀ b ∈ suffix.head?, endsPath b = true) : withoutQuery (es ++ suffix) = es := by
  have hclass : ∀ b,
      (decide (b ≠ Byte.question) && decide (b ≠ Byte.numberSign)) = !endsPath b := by
    intro b
    simp [endsPath]
  rw [withoutQuery]
  apply takeWhile_append_stop
  · intro b hb
    rw [hclass, hes b hb]
    rfl
  · cases suffix with
    | nil => rfl
    | cons b bs =>
        rw [beginsWith_cons, hclass, hsuffix b rfl]
        rfl

theorem path?_of_encodes {front p es suffix : Bytes}
    (hfront : lowerCase front = ascii "file://" ∨ lowerCase front = ascii "file://localhost")
    (hencodes : Encodes p es) (hsuffix : ∀ b ∈ suffix.head?, endsPath b = true) :
    path? (front ++ (Byte.slash :: es ++ suffix)) = some (Byte.slash :: p) := by
  rcases exists_host hfront with ⟨s, host, rfl, hs, hhost⟩
  have hmarks : ∀ b ∈ Byte.slash :: es, endsPath b = false :=
    List.forall_mem_cons.mpr ⟨rfl, hencodes.not_endsPath⟩
  have hdecode : Percent.decode (Byte.slash :: es) = Byte.slash :: p := by
    rw [Percent.decode_cons_of_ne (by decide), hencodes.decode_eq]
  rcases hasScheme_append hs (ascii "//" ++ (host ++ (Byte.slash :: es ++ suffix))) with
    ⟨hscheme, hdrop⟩
  rw [List.append_assoc, List.append_assoc, path?, if_pos hscheme, hdrop, List.cons_append,
    afterHost?_append hhost]
  simp only
  rw [← List.cons_append, withoutQuery_append hmarks hsuffix, hdecode]
  rfl

theorem afterHost?_suffix {rest path : Bytes} (h : afterHost? rest = some path) :
    path <:+ rest := by
  rw [afterHost?] at h
  split at h
  · simp only at h
    split at h
    · obtain rfl := Option.some.inj h
      exact (List.dropWhile_suffix _).trans (List.drop_suffix 2 rest)
    · cases h
  · exact Option.some.inj h ▸ List.suffix_refl rest

theorem length_lt_of_path? {location path : Bytes} (h : path? location = some path) :
    path.length < location.length := by
  rw [path?] at h
  split at h
  · rename_i hscheme
    have htake : (location.take scheme.length).length = scheme.length :=
      (List.length_map lowerByte).symm.trans (congrArg List.length (of_decide_eq_true hscheme))
    have hpositive : 0 < scheme.length := by decide
    rw [List.length_take] at htake
    split at h
    · cases h
    · rename_i rest hrest
      have hsuffix := (afterHost?_suffix hrest).length_le
      have hquery : (withoutQuery rest).length ≤ rest.length :=
        (List.takeWhile_prefix _).length_le
      have hdecode := Percent.length_decode_le (withoutQuery rest)
      simp only at h
      split at h
      · cases h
      · obtain rfl := Option.some.inj h
        rw [List.length_drop] at hsuffix
        omega
  · cases h

end FileUrl

namespace Source

/-!
## Loading

The scheme of a file URL counts as a scheme also where the URL names no path. Such a location
is refused; nothing tries to open it.
-/

def readFile (files : Files) (path : Bytes) : Except SourceError Bytes :=
  match files path with
  | none => .error (.cannotOpen path)
  | some contents => read contents

theorem load_of_path {location path : Bytes} (h : Source.path location = .ok path)
    (files : Files) : load files location = readFile files path := by
  rw [load, h]
  rfl

theorem path_of_path? {location path : Bytes} (h : FileUrl.path? location = some path) :
    Source.path location = .ok path := by
  have hne : location.isEmpty = false := by
    cases location with
    | nil => cases h
    | cons b bs => rfl
  rw [Source.path, hne, h]
  rfl

theorem hasScheme_of_lowerCase {s : Bytes} (h : lowerCase s = FileUrl.scheme) (rest : Bytes) :
    hasScheme (s ++ rest) = true := by
  rcases FileUrl.exists_name h with ⟨name, rfl, hname⟩
  have hcolon : Byte.colon ∉ name := mark_notMem (by decide) hname (by decide)
  have hslash : Byte.slash ∉ name := mark_notMem (by decide) hname (by decide)
  have hbackslash : Byte.backslash ∉ name := mark_notMem (by decide) hname (by decide)
  have hlength : name.length = 4 :=
    (List.length_map lowerByte).symm.trans (congrArg List.length hname)
  have hall : ∀ b ∈ name, decide (b ≠ Byte.colon) = true :=
    fun b hb => decide_eq_true fun heq => hcolon (heq ▸ hb)
  have htake : (name ++ Byte.colon :: rest).takeWhile (fun b => decide (b ≠ Byte.colon)) = name :=
    takeWhile_append_stop hall rfl
  rw [List.append_assoc, List.singleton_append, hasScheme]
  simp only [htake, hlength]
  simp [hslash, hbackslash, hlength]

theorem path_of_path?_eq_none {s : Bytes} (hs : lowerCase s = FileUrl.scheme) {rest : Bytes}
    (h : FileUrl.path? (s ++ rest) = none) :
    Source.path (s ++ rest) = .error (.unsupported (s ++ rest)) := by
  have hne : (s ++ rest).isEmpty = false := by
    cases s with
    | nil => cases hs
    | cons b bs => rfl
  rw [Source.path, hne, h, hasScheme_of_lowerCase hs rest]
  rfl

/--
Whatever encoding a file URL writes a path in, loading it opens that path and no other. A
location that begins like a file URL is either loaded from the path it names or refused.
-/
theorem load_fileUrl :
    (∀ front p es suffix : Bytes,
      (lowerCase front = ascii "file://" ∨ lowerCase front = ascii "file://localhost") →
      Percent.Encodes p es → (∀ b ∈ suffix.head?, b = Byte.question ∨ b = Byte.numberSign) →
      FileUrl.path? (front ++ (Byte.slash :: es ++ suffix)) = some (Byte.slash :: p) ∧
        ∀ files, load files (front ++ (Byte.slash :: es ++ suffix)) =
          readFile files (Byte.slash :: p)) ∧
      ∀ s rest : Bytes, lowerCase s = ascii "file:" →
        (∃ path, FileUrl.path? (s ++ rest) = some path ∧ path ≠ s ++ rest ∧
          ∀ files, load files (s ++ rest) = readFile files path) ∨
        (FileUrl.path? (s ++ rest) = none ∧
          ∀ files, load files (s ++ rest) = .error (.unsupported (s ++ rest))) := by
  constructor
  · intro front p es suffix hfront hencodes hsuffix
    have hends : ∀ b ∈ suffix.head?, Percent.endsPath b = true := by
      intro b hb
      simpa [Percent.endsPath] using hsuffix b hb
    have hpath := FileUrl.path?_of_encodes hfront hencodes hends
    exact ⟨hpath, load_of_path (path_of_path? hpath)⟩
  · intro s rest hs
    cases hpath : FileUrl.path? (s ++ rest) with
    | some path =>
        have hne : path ≠ s ++ rest := by
          rintro rfl
          exact absurd (FileUrl.length_lt_of_path? hpath) (Nat.lt_irrefl _)
        exact Or.inl ⟨path, rfl, hne, load_of_path (path_of_path? hpath)⟩
    | none =>
        refine Or.inr ⟨rfl, fun files => ?_⟩
        rw [load, path_of_path?_eq_none hs hpath]

/-- The path `/a %41`, with its percent sign escaped and not read once more. -/
theorem load_fileUrl_escaped :
    lowerCase (ascii "FILE://LocalHost") = ascii "file://localhost" ∧
      Percent.Encodes (ascii "a %41") (ascii "a%20%2541") ∧
      FileUrl.path? (ascii "FILE://LocalHost/a%20%2541?b#c") = some (ascii "/a %41") ∧
      lowerCase (ascii "FILE:") = ascii "file:" ∧
      ((∃ path, FileUrl.path? (ascii "FILE://host/a") = some path ∧
          path ≠ ascii "FILE://host/a" ∧
          ∀ files, load files (ascii "FILE://host/a") = readFile files path) ∨
        (FileUrl.path? (ascii "FILE://host/a") = none ∧
          ∀ files, load files (ascii "FILE://host/a") =
            .error (.unsupported (ascii "FILE://host/a")))) := by
  have hfront : lowerCase (ascii "FILE://LocalHost") = ascii "file://localhost" := by
    decide +kernel
  have hencodes : Percent.Encodes (ascii "a %41") (ascii "a%20%2541") := by
    refine .raw (by decide) (by decide) (by decide) (.escaped rfl rfl (by decide) ?_)
    refine .escaped rfl rfl (by decide) (.raw (by decide) (by decide) (by decide) ?_)
    exact .raw (by decide) (by decide) (by decide) .nil
  have hscheme : lowerCase (ascii "FILE:") = ascii "file:" := by decide +kernel
  have hlocal : ascii "FILE://LocalHost/a%20%2541?b#c" =
      ascii "FILE://LocalHost" ++ (Byte.slash :: ascii "a%20%2541" ++ ascii "?b#c") := by
    decide +kernel
  have hremote : ascii "FILE://host/a" = ascii "FILE:" ++ ascii "//host/a" := by decide +kernel
  have hpath : ascii "/a %41" = Byte.slash :: ascii "a %41" := by decide +kernel
  have hsuffix : ∀ b ∈ (ascii "?b#c").head?, b = Byte.question ∨ b = Byte.numberSign := by
    intro b hb
    have hhead : (ascii "?b#c").head? = some Byte.question := by decide +kernel
    rw [hhead] at hb
    exact Or.inl (Option.some.inj hb).symm
  rw [hlocal, hremote, hpath]
  exact ⟨hfront, hencodes,
    (load_fileUrl.1 _ _ _ _ (Or.inr hfront) hencodes hsuffix).1, hscheme,
    load_fileUrl.2 _ _ hscheme⟩

end Source
end CssText
