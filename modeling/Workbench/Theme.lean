/-!
# Theme

`apply_theme`: the colours and fonts of the window, and the options that they give to each kind of part.
-/

namespace Workbench

/-- The colours by what they are for. -/
inductive Color where
  | bgDark | bgMedium | bgLight | bgHighlight
  | textPrimary | textSecondary | textMuted
  | accent | accentBright | accentDim
  | success | error | warning | info
  | syntaxKeyword | syntaxType | syntaxBuiltin | syntaxString | syntaxNumber | syntaxComment
  deriving DecidableEq, Repr

namespace Color

def all : List Color :=
  [bgDark, bgMedium, bgLight, bgHighlight, textPrimary, textSecondary, textMuted, accent,
   accentBright, accentDim, success, error, warning, info, syntaxKeyword, syntaxType,
   syntaxBuiltin, syntaxString, syntaxNumber, syntaxComment]

def name : Color → String
  | bgDark => "bg_dark"
  | bgMedium => "bg_medium"
  | bgLight => "bg_light"
  | bgHighlight => "bg_highlight"
  | textPrimary => "text_primary"
  | textSecondary => "text_secondary"
  | textMuted => "text_muted"
  | accent => "accent"
  | accentBright => "accent_bright"
  | accentDim => "accent_dim"
  | success => "success"
  | error => "error"
  | warning => "warning"
  | info => "info"
  | syntaxKeyword => "syntax_keyword"
  | syntaxType => "syntax_type"
  | syntaxBuiltin => "syntax_builtin"
  | syntaxString => "syntax_string"
  | syntaxNumber => "syntax_number"
  | syntaxComment => "syntax_comment"

/-- The red, green and blue parts of a colour in hexadecimal. -/
def hex : Color → String
  | bgDark => "#0a1628"
  | bgMedium => "#122240"
  | bgLight => "#1a3358"
  | bgHighlight => "#2a4a7a"
  | textPrimary => "#f0e6a0"
  | textSecondary => "#b8a860"
  | textMuted => "#6a7a9a"
  | accent => "#5b9bd5"
  | accentBright => "#7ec8f0"
  | accentDim => "#3d6a94"
  | success => "#7ec97e"
  | error => "#e06060"
  | warning => "#e0c060"
  | info => "#5b9bd5"
  | syntaxKeyword => "#c490d0"
  | syntaxType => "#5bbbbb"
  | syntaxBuiltin => "#e0c060"
  | syntaxString => "#d09070"
  | syntaxNumber => "#a0d0a0"
  | syntaxComment => "#6a7a6a"

end Color

structure Font where
  use : String
  family : String
  size : Nat
  deriving DecidableEq, Repr

def fonts : List Font :=
  [⟨"code", "Consolas", 11⟩, ⟨"code_small", "Consolas", 10⟩, ⟨"ui", "Segoe UI", 10⟩]

namespace Theme

/-- What an option is set to. -/
inductive Setting where
  | color (c : Color)
  | number (n : Nat)
  | word (s : String)
  | padding (across down : Nat)
  /-- A colour for each of several states. -/
  | states (cs : List (String × Color))
  deriving DecidableEq, Repr

abbrev Options := List (String × Setting)

/-- What is done to a style of parts. -/
inductive Styling where
  | base (name : String)
  | configure (style : String) (options : Options)
  | map (style : String) (options : Options)
  deriving DecidableEq, Repr

def background (c : Color) : String × Setting := ("background", .color c)

def foreground (c : Color) : String × Setting := ("foreground", .color c)

/-- The looks of all parts of the window. -/
def stylings : List Styling :=
  [.base "clam",
   .configure "." [background .bgMedium, foreground .textPrimary],
   .configure "TFrame" [background .bgMedium],
   .configure "TLabel" [background .bgMedium, foreground .textPrimary],
   .configure "TButton" [background .bgLight, foreground .textPrimary],
   .map "TButton"
     [("background", .states [("active", .bgHighlight), ("pressed", .accentDim)])],
   .configure "TEntry" [("fieldbackground", .color .bgDark), foreground .textPrimary],
   .configure "TPanedwindow" [background .bgMedium],
   .configure "TScrollbar" [background .bgLight, ("troughcolor", .color .bgDark)],
   .configure "TSeparator" [background .accentDim],
   .configure "Tab.TFrame" [background .bgMedium],
   .configure "TabActive.TFrame" [background .bgDark],
   .configure "Tab.TLabel"
     [background .bgMedium, foreground .textMuted, ("padding", .padding 10 5)],
   .configure "TabActive.TLabel"
     [background .bgDark, foreground .textPrimary, ("padding", .padding 10 5)],
   .configure "TabClose.TLabel"
     [background .bgMedium, foreground .textMuted, ("padding", .padding 2 5)],
   .configure "TabCloseActive.TLabel"
     [background .bgDark, foreground .textPrimary, ("padding", .padding 2 5)]]

def window : Options := [("bg", .color .bgMedium)]

def textArea : Options :=
  [("bg", .color .bgDark), ("fg", .color .textPrimary),
   ("insertbackground", .color .textPrimary), ("selectbackground", .color .accent),
   ("selectforeground", .color .bgDark), ("highlightthickness", .number 0),
   ("borderwidth", .number 0)]

def entry : Options :=
  [("bg", .color .bgDark), ("fg", .color .textPrimary),
   ("insertbackground", .color .textPrimary), ("relief", .word "flat"),
   ("highlightthickness", .number 1), ("highlightbackground", .color .accentDim),
   ("highlightcolor", .color .accent)]

/-- The number of settings that are made when the theme is set up once: every call on the styles, and every
option of a text area and of an entry. -/
def settingCount : Nat := stylings.length + textArea.length + entry.length

def firstColors : List String := ((Color.all.map Color.name).mergeSort fun a b => !(b < a)).take 3

/-- What setting the theme up `n` times comes to: the number of settings made, and the first colors. -/
def setUpTimes (n : Nat) : Nat × List String := (n * settingCount, firstColors)

end Theme

end Workbench
